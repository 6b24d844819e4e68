import TraceCapture.Proofs.Reader.Calls
import TraceCapture.Proofs.Stream.Memory

set_option autoImplicit false

namespace TraceCapture.Reader

structure Bounded (file : ByteArray) (codec : Codec) (r : Reader MemorySource) : Prop where
  codec_eq : r.codec = codec
  data_eq : r.inner.data = file
  cursor_le : r.cursor ≤ r.cache.size
  cache_le : r.cache.size ≤ maxChunkSize
  buffer_le : r.bufferSize ≤ codec.maxCompressedSize maxChunkSize
  cache_eq : r.exhausted = true → r.cache = .empty
  chunk_lt : r.chunk < Word.size
  position_lt : r.position < Word.size
  length_lt : r.fileLength < Word.size
  position_le : r.exhausted = false → r.position ≤ r.inner.position

variable {file : ByteArray} {codec : Codec} {r : Reader MemorySource}

theorem Bounded.markExhausted (h : Bounded file codec r) (hcache : r.cache = .empty) :
    Bounded file codec r.markExhausted :=
  { h with
    cache_eq := fun _ => hcache
    position_lt := h.length_lt
    position_le := nofun }

theorem Bounded.record (h : Bounded file codec r) (e : TraceEvent) :
    Bounded file codec (r.record e) :=
  { h with }

theorem Bounded.withCache (h : Bounded file codec r) (hex : r.exhausted = false)
    (hcursor : r.cursor = 0) {cache : ByteArray} (hsize : cache.size ≤ maxChunkSize) :
    Bounded file codec { r with cache } :=
  { h with
    cursor_le := hcursor ▸ Nat.zero_le cache.size
    cache_le := hsize
    cache_eq := fun hend => by
      rw [hex] at hend
      cases hend }

theorem Bounded.cacheBlock (h : Bounded file codec r) (hex : r.exhausted = false)
    (hcursor : r.cursor = 0) {size : Nat} (hsize : size ≤ maxChunkSize) (block : ByteArray)
    (skip : Nat) : Bounded file codec (r.cacheBlock block size skip).2 := by
  unfold Reader.cacheBlock
  split
  · exact { h.withCache hex hcursor (Nat.le_trans (Nat.le_of_eq (Bytes.size_fit _ _)) hsize) with }
  · exact h.withCache hex hcursor (Nat.le_trans (Nat.le_of_eq (Bytes.size_zeros _)) hsize)

/-- What a source in memory gives of an entry lies in its file. -/
theorem of_fetched {found : Fetched} {inner : MemorySource} (h : r.fetched = (found, inner)) :
    inner.data = r.inner.data ∧ r.inner.position ≤ inner.position ∧
      ∀ length bytes, found = .block length bytes →
        inner.position = r.inner.position + lengthSize + length ∧
          inner.position ≤ r.inner.data.size := by
  have hkept := Source.fetch_keeps
    (P := fun s : MemorySource => s.data = r.inner.data ∧ r.inner.position ≤ s.position)
    (fun s n hs => ⟨(MemorySource.data_readExact? (Prod.eta _).symm).trans hs.1,
      Nat.le_trans hs.2 (MemorySource.readExact?_position (Prod.eta _).symm).1⟩)
    ⟨rfl, Nat.le_refl _⟩ (r.codec.maxCompressedSize maxChunkSize)
  change r.fetched.2.data = _ ∧ _ ≤ r.fetched.2.position at hkept
  rw [h] at hkept
  refine ⟨hkept.1, hkept.2, ?_⟩
  rintro length bytes rfl
  obtain ⟨b, s, hfront, hpos, -, hblock⟩ := Source.of_fetch h rfl
  obtain ⟨hon, hin⟩ := (MemorySource.readExact?_position hfront).2 b rfl (by decide)
  obtain ⟨hon', hin'⟩ :=
    (MemorySource.readExact?_position (Source.of_fetchBlock hblock).2).2 bytes rfl hpos
  rw [hon', hon]
  exact ⟨rfl, (MemorySource.data_readExact? hfront) ▸ hon ▸ hon' ▸ hin'⟩

theorem Bounded.buffered (h : Bounded file codec r) (hex : r.exhausted = false) {found : Fetched}
    {inner : MemorySource} (hr : r.fetched = (found, inner)) :
    Bounded file codec (r.buffered inner found.length?) := by
  obtain ⟨hdata, hon, -⟩ := of_fetched hr
  exact { h with
    data_eq := hdata.trans h.data_eq
    cursor_le := Nat.zero_le _
    cache_le := Nat.zero_le _
    cache_eq := fun _ => rfl
    chunk_lt := h.position_lt
    position_le := fun _ => Nat.le_trans (h.position_le hex) hon
    buffer_le := by
      cases hlength : found.length? with
      | none => exact h.buffer_le
      | some length =>
        obtain ⟨b, s, -, -, hmax, -⟩ := Source.of_fetch hr hlength
        exact h.codec_eq ▸ hmax }

theorem Bounded.loadChunk (h : Bounded file codec r) (hfile : file.size < Word.size)
    (hex : r.exhausted = false) (skip : Nat) : Bounded file codec (r.loadChunk skip).2 := by
  rw [loadChunk_eq]
  rcases hr : r.fetched with ⟨found, inner⟩
  have hb := h.buffered hex hr
  cases found with
  | fails cause length? => exact hb
  | ends length? =>
    cases length? with
    | none => exact hb.markExhausted rfl
    | some length => exact (hb.record _).markExhausted rfl
  | block length block =>
    obtain ⟨-, -, hat⟩ := of_fetched hr
    obtain ⟨hon, hin⟩ := hat length block rfl
    have hle := h.position_le hex
    rw [h.data_eq] at hin
    have hnext : Bounded file codec { r.buffered inner (some length) with
        position := r.position + lengthSize + length } :=
      { hb with
        position_lt := by
          dsimp only
          omega
        position_le := fun _ => by
          dsimp only [Reader.buffered, between]
          omega }
    unfold settle
    dsimp only
    split
    · exact hnext
    · next size hsize =>
      exact hnext.cacheBlock hex rfl (Codec.announced_le hsize) block skip

theorem Bounded.seek (h : Bounded file codec r) {n : Nat} {inner : MemorySource}
    (hn : n < Word.size) (hs : Source.seekStart r.inner n = (.ok (), inner)) :
    Bounded file codec { r with inner, position := n, exhausted := false } := by
  obtain ⟨-, rfl⟩ := MemorySource.of_seek_ok hs
  exact { h with
    cache_eq := nofun
    position_lt := hn
    position_le := fun _ => Nat.le_refl n }

theorem Bounded.refused (h : Bounded file codec r) {n : Nat} {e : IoError} {inner : MemorySource}
    (hs : Source.seekStart r.inner n = (.error e, inner)) :
    Bounded file codec { r with inner } := by
  obtain rfl := MemorySource.of_seek_error hs
  exact { h with }

theorem Opening.bounded {faults : SourceFaults}
    (h : Opening (MemorySource.new file faults) codec r) (hfile : file.size < Word.size)
    (hlength : ∀ n, faults.fakeLength = some n → n < Word.size) : Bounded file codec r := by
  obtain @⟨s, t, inner, length, b, hend, hstart, hmagic⟩ := h
  obtain ⟨hlen, rfl⟩ := MemorySource.of_seek_ok hend
  obtain ⟨-, rfl⟩ := MemorySource.of_seek_ok hstart
  have hat := ((MemorySource.readExact?_position hmagic).2 b rfl (by decide)).1
  have hfirst : magic.size < Word.size := by decide
  have hlt : length < Word.size := by
    rw [hlen]
    change faults.fakeLength.getD file.size < Word.size
    cases hf : faults.fakeLength with
    | none => exact hfile
    | some n => exact hlength n hf
  exact
    { codec_eq := rfl
      data_eq := MemorySource.data_readExact? hmagic
      cursor_le := Nat.le_refl 0
      cache_le := Nat.zero_le _
      buffer_le := Nat.zero_le _
      cache_eq := fun _ => rfl
      chunk_lt := hfirst
      position_lt := hfirst
      length_lt := hlt
      position_le := fun _ => by
        change magic.size ≤ inner.position
        rw [hat]
        exact Nat.le_add_left _ _ }

theorem Bounded.moves {first : Reader MemorySource} (h : Bounded file codec first)
    (hfile : file.size < Word.size) (hm : Moves (· < Word.size) first r) :
    Bounded file codec r := by
  induction hm with
  | refl => exact h
  | load _ hr skip ih => exact ih.loadChunk hfile hr skip
  | @step r k _ hk ih =>
    exact { ih with
      cursor_le := by
        have hcursor := ih.cursor_le
        unfold available at hk
        dsimp only
        omega }
  | seek _ hn hs ih => exact ih.seek hn hs
  | refused _ hs ih => exact ih.refused hs
  | place _ hw ih => exact { ih with cursor_le := hw }

/-- The readers that calls pass through from the opening of a file on, those in the middle of a call
and those that a failed call leaves behind among them. -/
def Moment {σ : Type} [Source σ] (source : σ) (codec : Codec) (r : Reader σ) : Prop :=
  ∃ first, Opening source codec first ∧ Moves (· < Word.size) first r

theorem Moment.call {σ : Type} [Source σ] {source : σ} {r : Reader σ}
    (h : Moment source codec r) {call : ReaderCall} (hcall : call.Within (· < Word.size)) :
    Moment source codec (call.perform r) := by
  obtain ⟨first, hfirst, hmoves⟩ := h
  exact ⟨first, hfirst, (hmoves.call hcall).moves⟩

theorem Moment.bounded {faults : SourceFaults} (h : Moment (MemorySource.new file faults) codec r)
    (hfile : file.size < Word.size)
    (hlength : ∀ n, faults.fakeLength = some n → n < Word.size) : Bounded file codec r := by
  obtain ⟨first, hfirst, hmoves⟩ := h
  exact (hfirst.bounded hfile hlength).moves hfile hmoves

theorem percentRead_le {σ : Type} (r : Reader σ) : r.percentRead ≤ 100 := by
  unfold percentRead
  split
  · exact Nat.le_refl _
  · exact Nat.min_le_left _ _

end TraceCapture.Reader
