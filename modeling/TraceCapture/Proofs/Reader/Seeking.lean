import TraceCapture.Proofs.Block.Lz4.Lawful
import TraceCapture.Proofs.Reader.Calls
import TraceCapture.Proofs.Stream.Memory
import TraceCapture.Proofs.Trace.Places

set_option autoImplicit false

namespace TraceCapture

namespace Reader

variable {σ : Type} [LawfulSource σ]

section

variable (codec : Codec) (file : ByteArray) (chunks : List ByteArray)

/-- The reader has loaded the entry that follows `k` others, or has met the end behind all of them.
The next `ahead` bytes will be stepped over, and zeros may stand for them. -/
structure Caches (ahead k : Nat) (r : Reader σ) : Prop where
  codec_eq : r.codec = codec
  chunk_eq : r.chunk = Entry.after file magic.size k
  size_eq : r.cache.size = (chunks.getD k .empty).size
  cursor_le : r.cursor ≤ r.cache.size
  rest_eq : ∀ i, r.cursor + ahead ≤ i →
    r.cache.extract i r.cache.size = (chunks.getD k .empty).extract i r.cache.size
  next : k = chunks.length ∧ r.exhausted = true ∨
    k < chunks.length ∧ r.exhausted = false ∧
      r.position = Entry.after file magic.size (k + 1) ∧ Source.At r.inner file r.position

def StandsAt (r : Reader σ) (p : Nat) : Prop :=
  ∃ k, Caches codec file chunks 0 k r ∧ p = Bytes.startOf chunks k + r.cursor

end

variable {codec : Codec} {file : ByteArray} {chunks : List ByteArray} {ahead k p : Nat}
  {r : Reader σ}

theorem Caches.le_length (h : Caches codec file chunks ahead k r) : k ≤ chunks.length := by
  rcases h.next with ⟨heq, -⟩ | ⟨hlt, -⟩
  · exact Nat.le_of_eq heq
  · exact Nat.le_of_lt hlt

theorem Caches.byte_le (h : Caches codec file chunks ahead k r) :
    Bytes.startOf chunks k + r.cursor ≤ (Bytes.concat chunks).size := by
  have hle := Bytes.startOf_le chunks (k + 1)
  have hcursor := h.cursor_le
  rw [h.size_eq] at hcursor
  rw [Bytes.startOf_succ] at hle
  omega

theorem Caches.advance (h : Caches codec file chunks ahead k r) {n : Nat} (hn : n ≤ r.available) :
    Caches codec file chunks (ahead - n) k { r with cursor := r.cursor + n } where
  codec_eq := h.codec_eq
  chunk_eq := h.chunk_eq
  size_eq := h.size_eq
  cursor_le := by
    have hle := h.cursor_le
    unfold available at hn
    dsimp only
    omega
  rest_eq i hi := h.rest_eq i (by dsimp only at hi; omega)
  next := h.next

theorem Caches.exhausted (h : Caches codec file chunks ahead k r) (hex : r.exhausted = true) :
    k = chunks.length ∧ r.cache.size = 0 := by
  rcases h.next with ⟨hk, -⟩ | ⟨-, hfalse, -⟩
  · have hsize := h.size_eq
    rw [hk] at hsize
    exact ⟨hk, by simpa using hsize⟩
  · rw [hex] at hfalse
    cases hfalse

theorem Caches.live (h : Caches codec file chunks ahead k r) (hex : ¬ r.exhausted = true) :
    k < chunks.length ∧ r.position = Entry.after file magic.size (k + 1) ∧
      Source.At r.inner file r.position := by
  rcases h.next with ⟨-, htrue⟩ | ⟨hlt, -, hpos, hat⟩
  · exact absurd htrue hex
  · exact ⟨hlt, hpos, hat⟩

theorem caches_loadChunk (hd : codec.Decodes file magic.size chunks) (hk : k ≤ chunks.length)
    (hcodec : r.codec = codec) (hex : r.exhausted = false)
    (hpos : r.position = Entry.after file magic.size k) (hat : Source.At r.inner file r.position)
    (skip : Nat) :
    ∃ r', r.loadChunk skip = (.ok (), r') ∧ Caches codec file chunks skip k r' ∧
      r'.cursor = 0 := by
  rcases Nat.lt_or_eq_of_le hk with hlt | rfl
  · obtain ⟨e, he, hc, hstop⟩ := hd.entry_after hlt
    rw [← hpos] at he
    rw [← hcodec] at hc
    obtain ⟨inner, hat', hload⟩ := loadChunk_entry hat he hc skip
    refine ⟨_, hload, ?_, rfl⟩
    exact {
      codec_eq := hcodec
      chunk_eq := hpos
      size_eq := by
        dsimp only
        split
        · rfl
        · exact Bytes.size_zeros _
      cursor_le := Nat.zero_le _
      rest_eq := by
        intro i hi
        dsimp only at hi ⊢
        split
        · rfl
        · next hskip =>
          -- zeros stand only for bytes that will all be stepped over
          rw [Bytes.size_zeros]
          rw [ByteArray.extract_eq_empty_iff.mpr (by omega),
            ByteArray.extract_eq_empty_iff.mpr (by omega)]
      next := .inr ⟨hlt, hex, hstop, hat'⟩ }
  · have hends := hd.ends_after
    rw [← hpos, ← hcodec] at hends
    obtain ⟨inner, bufferSize, log, hload⟩ := loadChunk_ends hat hends skip
    refine ⟨_, hload, ?_, rfl⟩
    exact {
      codec_eq := hcodec
      chunk_eq := hpos
      size_eq := by simp
      cursor_le := Nat.zero_le _
      rest_eq := by simp
      next := .inl ⟨rfl, rfl⟩ }

theorem Caches.loadChunk (hd : codec.Decodes file magic.size chunks)
    (h : Caches codec file chunks ahead k r) (hex : r.exhausted = false) (skip : Nat) :
    ∃ r', r.loadChunk skip = (.ok (), r') ∧ Caches codec file chunks skip (k + 1) r' ∧
      r'.cursor = 0 := by
  obtain ⟨hlt, hpos, hat⟩ := h.live (Bool.eq_false_iff.mp hex)
  exact caches_loadChunk hd hlt h.codec_eq hex hpos hat skip

theorem feeds_standsAt (hd : codec.Decodes file magic.size chunks) :
    Feeds (fun (r : Reader σ) rest => ∃ p ≤ (Bytes.concat chunks).size,
      StandsAt codec file chunks r p ∧
        rest = (Bytes.concat chunks).extract p (Bytes.concat chunks).size) (.ok ()) where
  step := by
    rintro r rest n ⟨p, hp, ⟨k, h, rfl⟩, rfl⟩ hn
    have hrest : (Bytes.concat chunks).extract (Bytes.startOf chunks k + r.cursor)
        (Bytes.concat chunks).size = r.cache.extract r.cursor r.cache.size ++
          Bytes.concat (chunks.drop (k + 1)) := by
      rw [Bytes.extract_startOf chunks k (h.size_eq ▸ h.cursor_le),
        h.rest_eq r.cursor (Nat.le_refl _), h.size_eq]
    have hnext := h.advance hn
    refine ⟨⟨_, hnext.byte_le, ⟨k, by simpa using hnext, rfl⟩, ?_⟩, ?_⟩
    · rw [Bytes.extract_rest_rest, Nat.add_assoc]
    · rw [hrest]
      exact (extract_step hn _).2
  finished := by
    rintro r rest ⟨p, hp, ⟨k, h, rfl⟩, rfl⟩ h0 hex
    obtain ⟨rfl, -⟩ := h.exhausted hex
    rw [Bytes.startOf_length]
    exact ⟨ByteArray.extract_eq_empty_iff.mpr (by omega), rfl⟩
  load := by
    rintro r rest ⟨p, hp, ⟨k, h, rfl⟩, rfl⟩ h0 hex
    obtain ⟨r', hr', hcaches, hcursor⟩ := h.loadChunk hd hex 0
    refine .inl ⟨r', hr', _, hp, ⟨k + 1, hcaches, ?_⟩, rfl⟩
    have hsize := h.size_eq
    have hcursor' := h.cursor_le
    unfold available at h0
    rw [Bytes.startOf_succ, hcursor]
    omega

theorem StandsAt.le_size (h : StandsAt codec file chunks r p) : p ≤ (Bytes.concat chunks).size := by
  obtain ⟨k, hcaches, rfl⟩ := h
  exact hcaches.byte_le

theorem StandsAt.delivers (hd : codec.Decodes file magic.size chunks)
    (h : StandsAt codec file chunks r p) :
    r.Delivers ((Bytes.concat chunks).extract p (Bytes.concat chunks).size) :=
  (feeds_standsAt hd).delivers ⟨p, h.le_size, h, rfl⟩

theorem StandsAt.read (hd : codec.Decodes file magic.size chunks)
    (h : StandsAt codec file chunks r p) (call : ReadCall) :
    StandsAt codec file chunks (call.perform r).2
      (min (p + call.size) (Bytes.concat chunks).size) := by
  have hp := h.le_size
  obtain ⟨r', hr', ⟨p', hp', hstands, hrest⟩, -⟩ :=
    ((feeds_standsAt hd).perform ⟨p, hp, h, rfl⟩ call).1 (.inr rfl)
  have hsize := congrArg ByteArray.size hrest
  simp only [ByteArray.size_extract, Nat.min_self] at hsize
  rw [hr']
  have heq : min (p + call.size) (Bytes.concat chunks).size = p' := by omega
  rw [heq]
  exact hstands

/-- Stepping over bytes loads chunks that may hold zeros, and ends in one that does not. -/
theorem Caches.skipOn (hd : codec.Decodes file magic.size chunks) {n : Nat}
    (h : Caches codec file chunks n k r) :
    ∃ r', r.skipOn n = (.ok (), r') ∧ StandsAt codec file chunks r'
      (min (Bytes.startOf chunks k + r.cursor + n) (Bytes.concat chunks).size) := by
  fun_induction Reader.skipOn r n generalizing k with
  | case1 r n step stepped =>
    rename_i hn
    have hstep : step = n := Nat.le_antisymm (Nat.min_le_right _ _) hn
    have hnext : Caches codec file chunks (n - step) k stepped :=
      h.advance (Nat.min_le_left r.available n)
    rw [hstep, Nat.sub_self] at hnext
    refine ⟨stepped, rfl, k, hnext, ?_⟩
    have hle := hnext.byte_le
    dsimp only [stepped] at hle ⊢
    omega
  | case2 r n step stepped hn =>
    rename_i hex
    obtain ⟨rfl, hsize⟩ := h.exhausted hex
    have hnext : Caches codec file chunks (n - step) chunks.length stepped :=
      h.advance (Nat.min_le_left r.available n)
    refine ⟨stepped, rfl, chunks.length, { hnext with rest_eq := ?_ }, ?_⟩
    · intro i hi
      rw [ByteArray.extract_eq_empty_iff.mpr (by dsimp only [stepped]; omega),
        ByteArray.extract_eq_empty_iff.mpr (by dsimp only [stepped]; omega)]
    · have hcursor := hnext.cursor_le
      have hstart := Bytes.startOf_length chunks
      dsimp only [stepped] at hcursor ⊢
      omega
  | case3 r n step stepped hn hex r' hload =>
    rename_i ih
    have hnext : Caches codec file chunks (n - step) k stepped :=
      h.advance (Nat.min_le_left r.available n)
    obtain ⟨v, hv, hcaches, hcursor⟩ := hnext.loadChunk hd (Bool.eq_false_iff.mpr hex) (n - step)
    rw [hload] at hv
    cases hv
    obtain ⟨r'', hr'', hstands⟩ := ih hcaches
    refine ⟨r'', hr'', ?_⟩
    -- the reader has used up the cached chunk, so the next one starts where it stands
    have hstart : Bytes.startOf chunks (k + 1) + r'.cursor + (n - step) =
        Bytes.startOf chunks k + r.cursor + n := by
      have hsize := h.size_eq
      have hle := h.cursor_le
      have hstep : step = r.available := by omega
      unfold available at hstep
      rw [Bytes.startOf_succ]
      omega
    rwa [hstart] at hstands
  | case4 r n step stepped hn hex e r' | case5 r n step stepped hn hex v r' =>
    rename_i hload
    have hnext : Caches codec file chunks (n - step) k stepped :=
      h.advance (Nat.min_le_left r.available n)
    obtain ⟨v, hv, -⟩ := hnext.loadChunk hd (Bool.eq_false_iff.mpr hex) (n - step)
    rw [hload] at hv
    cases hv

theorem StandsAt.skip (hd : codec.Decodes file magic.size chunks)
    (h : StandsAt codec file chunks r p) (n : Nat) :
    StandsAt codec file chunks (r.skip n).2 (min (p + n) (Bytes.concat chunks).size) := by
  obtain ⟨k, hcaches, rfl⟩ := h
  unfold Reader.skip
  split
  · next hend =>
    simp only [endOfData, Bool.and_eq_true] at hend
    obtain ⟨rfl, -⟩ := hcaches.exhausted hend.1
    refine ⟨chunks.length, hcaches, ?_⟩
    have hle := hcaches.byte_le
    have hstart := Bytes.startOf_length chunks
    dsimp only
    omega
  · have hskip : Caches codec file chunks n k r :=
      { hcaches with rest_eq := fun i hi => hcaches.rest_eq i (by omega) }
    obtain ⟨r', hr', hstands⟩ := hskip.skipOn hd
    rw [hr']
    exact hstands

/-- A seek to a place caches its chunk, whatever the reader did before. -/
theorem seek_standsAt {source : σ} (hd : codec.Decodes file magic.size chunks)
    (hmagic : file.extract 0 magic.size = magic) (hs : Source.Seekable source)
    (hc : LawfulSource.contents source = file) (h : Over source codec r) (hk : k ≤ chunks.length)
    (w : Nat) :
    (w ≤ (chunks.getD k .empty).size → ∃ r',
      r.setCurrentOffset ⟨Entry.after file magic.size k, w⟩ = (.ok (), r') ∧
        StandsAt codec file chunks r' (Bytes.startOf chunks k + w)) ∧
    ((chunks.getD k .empty).size < w → ∃ r',
      r.setCurrentOffset ⟨Entry.after file magic.size k, w⟩ =
        (.error (.invalidOffset (Entry.after file magic.size k) w
          (chunks.getD k .empty).size), r') ∧
        StandsAt codec file chunks r' (Bytes.startOf chunks k)) := by
  obtain ⟨inner, hinner, hat⟩ := hs.at h.visits hc (Entry.after_le (magic_size_le hmagic) k)
  obtain ⟨r', hr', hcaches, hcursor⟩ := caches_loadChunk
    (r := { r with inner, position := Entry.after file magic.size k, exhausted := false })
    hd hk h.codec_eq rfl rfl hat 0
  unfold setCurrentOffset
  simp only [hinner, hr', hcaches.size_eq]
  constructor
  · intro hw
    have hmoved := hcaches.advance (n := w) (by
      rw [available, hcursor, hcaches.size_eq]
      exact hw)
    rw [hcursor, Nat.zero_add] at hmoved
    rw [if_neg (Nat.not_lt_of_le hw)]
    exact ⟨_, rfl, k, by simpa using hmoved, rfl⟩
  · intro hw
    rw [if_pos hw]
    exact ⟨r', rfl, k, hcaches, by rw [hcursor, Nat.add_zero]⟩

theorem start_standsAt {source : σ} (hd : codec.Decodes file magic.size chunks)
    (hmagic : file.extract 0 magic.size = magic) {i : Nat} (hat : Source.At source file i)
    (h : Reader.start source codec = .ok r) : StandsAt codec file chunks r 0 := by
  obtain ⟨inner, length, hinner, hstart⟩ := (start_eq hat codec).2 hmagic
  obtain ⟨r', hr', hcaches, hcursor⟩ := caches_loadChunk (k := 0)
    (r := fresh inner codec length) hd (Nat.zero_le _) rfl rfl rfl hinner 0
  rw [hstart, hr'] at h
  cases h
  exact ⟨0, hcaches, by rw [hcursor, Bytes.startOf_zero]⟩

/-- The readers that calls bring to a byte of the trace. A seek brings any reader there; the offsets
that it takes are the places of the file, and a place beyond its chunk is refused. -/
inductive Arrived (source : σ) (codec : Codec) (file : ByteArray) (chunks : List ByteArray) :
    Reader σ → Nat → Prop where
  | start {r : Reader σ} (h : Reader.start source codec = .ok r) :
      Arrived source codec file chunks r 0
  | read {r : Reader σ} {p : Nat} (call : ReadCall) (h : Arrived source codec file chunks r p) :
      Arrived source codec file chunks (call.perform r).2
        (min (p + call.size) (Bytes.concat chunks).size)
  | skip {r : Reader σ} {p : Nat} (n : Nat) (h : Arrived source codec file chunks r p) :
      Arrived source codec file chunks (r.skip n).2 (min (p + n) (Bytes.concat chunks).size)
  | seek {r : Reader σ} {k w : Nat} (h : Opened source codec r) (hk : k ≤ chunks.length)
      (hw : w ≤ (chunks.getD k .empty).size) :
      Arrived source codec file chunks
        (r.setCurrentOffset ⟨Entry.after file magic.size k, w⟩).2 (Bytes.startOf chunks k + w)
  | refused {r : Reader σ} {k w : Nat} (h : Opened source codec r) (hk : k ≤ chunks.length)
      (hw : (chunks.getD k .empty).size < w) :
      Arrived source codec file chunks
        (r.setCurrentOffset ⟨Entry.after file magic.size k, w⟩).2 (Bytes.startOf chunks k)

theorem Arrived.standsAt {source : σ} (hd : codec.Decodes file magic.size chunks)
    (hmagic : file.extract 0 magic.size = magic) (hs : Source.Seekable source) {i : Nat}
    (hat : Source.At source file i) (h : Arrived source codec file chunks r p) :
    StandsAt codec file chunks r p := by
  induction h with
  | start h => exact start_standsAt hd hmagic hat h
  | read call _ ih => exact ih.read hd call
  | skip n _ ih => exact ih.skip hd n
  | @seek r k w h hk hw =>
    obtain ⟨r', hr', hstands⟩ := (seek_standsAt hd hmagic hs hat.contents_eq h.over hk w).1 hw
    rw [hr']
    exact hstands
  | @refused r k w h hk hw =>
    obtain ⟨r', hr', hstands⟩ := (seek_standsAt hd hmagic hs hat.contents_eq h.over hk w).2 hw
    rw [hr']
    exact hstands

theorem StandsAt.resume {τ : Type} [LawfulSource τ] {other : Reader τ} {source : τ}
    (h : StandsAt codec file chunks r p) (hd : codec.Decodes file magic.size chunks)
    (hmagic : file.extract 0 magic.size = magic) (hs : Source.Seekable source)
    (hc : LawfulSource.contents source = file) (ho : Over source codec other) :
    ∃ other', other.setCurrentOffset r.currentOffset = (.ok (), other') ∧
      StandsAt codec file chunks other' p := by
  obtain ⟨k, hcaches, rfl⟩ := h
  have hcursor := hcaches.cursor_le
  rw [hcaches.size_eq] at hcursor
  rw [currentOffset, hcaches.chunk_eq]
  exact (seek_standsAt hd hmagic hs hc ho hcaches.le_length r.cursor).1 hcursor

end Reader

/-- A seek depends on the file alone, and an offset means the same byte to every reader of it. -/
theorem seeks_are_exact {σ τ : Type} [LawfulSource σ] [LawfulSource τ] {source : σ} {other : τ}
    {codec : Codec} {file : ByteArray} {chunks : List ByteArray}
    (hmagic : file.extract 0 magic.size = magic) (hd : codec.Decodes file magic.size chunks)
    (hfree : Source.FaultFree source) (hs : Source.Seekable source)
    (hc : LawfulSource.contents source = file) (ho : Source.Seekable other)
    (hco : LawfulSource.contents other = file) :
    let data := Bytes.concat chunks
    (∀ r, Reader.Opened source codec r → ∀ k ≤ chunks.length, ∀ w,
      (w ≤ (chunks.getD k .empty).size → ∃ r',
        r.setCurrentOffset ⟨Entry.after file magic.size k, w⟩ = (.ok (), r') ∧
          r'.Delivers (data.extract (Bytes.startOf chunks k + w) data.size)) ∧
      ((chunks.getD k .empty).size < w →
        (r.setCurrentOffset ⟨Entry.after file magic.size k, w⟩).1 =
          .error (.invalidOffset (Entry.after file magic.size k) w
            (chunks.getD k .empty).size))) ∧
    ∀ r p, Reader.Arrived source codec file chunks r p →
      r.Delivers (data.extract p data.size) ∧
      ∀ r₂, Reader.Opened other codec r₂ → ∃ r',
        r₂.setCurrentOffset r.currentOffset = (.ok (), r') ∧
          r'.Delivers (data.extract p data.size) := by
  refine ⟨fun r hr k hk w => ⟨fun hw => ?_, fun hw => ?_⟩, fun r p hr => ?_⟩
  · obtain ⟨r', hr', hstands⟩ := (Reader.seek_standsAt hd hmagic hs hc hr.over hk w).1 hw
    exact ⟨r', hr', hstands.delivers hd⟩
  · obtain ⟨r', hr', -⟩ := (Reader.seek_standsAt hd hmagic hs hc hr.over hk w).2 hw
    rw [hr']
  · have hstands := hr.standsAt hd hmagic hs ⟨hfree, hc, rfl⟩
    refine ⟨hstands.delivers hd, fun r₂ hr₂ => ?_⟩
    obtain ⟨r', hr', hstands'⟩ := hstands.resume hd hmagic ho hco hr₂.over
    exact ⟨r', hr', hstands'.delivers hd⟩

def twoChunks : ByteArray :=
  ⟨#[97, 116, 7, 0, 0, 0, 2, 0, 0, 0, 32, 104, 105, 6, 0, 0, 0, 1, 0, 0, 0, 16, 33]⟩

theorem encodes_lastByte :
    (Codec.lz4 .checked).Encodes ⟨#[1, 0, 0, 0, 16, 33]⟩ ⟨#[33]⟩ := by
  have hcompress : (Codec.lz4 .checked).compress 0 ⟨#[33]⟩ 26 = .ok ⟨#[1, 0, 0, 0, 16, 33]⟩ := by
    with_unfolding_all rfl
  exact (Lz4.lawful_lz4 .checked).encodes (by decide) (by decide) hcompress

theorem decodes_twoChunks :
    (Codec.lz4 .checked).Decodes twoChunks magic.size [⟨#[104, 105]⟩, ⟨#[33]⟩] :=
  .entry (e := ⟨2, _⟩) rfl Lz4.encodes_hi
    (.entry (e := ⟨13, _⟩) rfl encodes_lastByte (.ends trivial))

theorem seeks_are_exact_after_a_refusal :
    ∃ r r', Reader.start (MemorySource.new twoChunks .none) (.lz4 .checked) = .ok r ∧
      ((Reader.ReaderCall.seek ⟨13, 2⟩).perform
        ((Reader.ReaderCall.skip 3).perform r)).setCurrentOffset ⟨2, 1⟩ = (.ok (), r') ∧
      r'.Delivers ⟨#[105, 33]⟩ := by
  have hsound : (MemorySource.new twoChunks .none).Sound := MemorySource.sound_new (by decide)
  obtain ⟨r, hr, -⟩ := Reader.start_holds ⟨hsound.faultFree, rfl, rfl⟩ rfl decodes_twoChunks
  obtain ⟨hseek, -⟩ := seeks_are_exact rfl decodes_twoChunks hsound.faultFree hsound.seekable rfl
    hsound.seekable rfl
  obtain ⟨r', hr', hdelivers⟩ :=
    (hseek _ (.call (.seek ⟨13, 2⟩) (.call (.skip 3) (.start hr))) 0 (by decide) 1).1 (by decide)
  exact ⟨r, r', hr, hr', hdelivers⟩

end TraceCapture
