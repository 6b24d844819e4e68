import TraceCapture.Proofs.Reader.Load

set_option autoImplicit false

namespace TraceCapture

structure Course where
  left : ByteArray
  index : Nat

namespace Codec

variable (codec : Codec) (file : ByteArray)

inductive Spans (first : Nat) : Nat → Nat → Prop where
  | refl : Spans first 0 first
  | entry {n i size : Nat} {e : Entry} (h : Spans first n i)
      (he : codec.entryAt? file i = .ok (some e)) (hsize : codec.announced e.block = .ok size) :
      Spans first (n + size) e.stop

/-- On this course the byte at a place of the stream is one that was left or one of a chunk that was
decoded. -/
inductive ByteAt (course : Course) : Nat → UInt8 → Prop where
  | left {p : Nat} {x : UInt8} (h : Bytes.at? course.left p = some x) : ByteAt course p x
  | decoded {n i size call k : Nat} {e : Entry} {x : UInt8} (h : Spans codec file course.index n i)
      (he : codec.entryAt? file i = .ok (some e)) (hsize : codec.announced e.block = .ok size)
      (hok : (codec.decompress call e.block size).ending = .ok ())
      (hx : Bytes.at? (Bytes.fit (codec.decompress call e.block size).output size) k = some x) :
      ByteAt course (course.left.size + n + k) x

def PieceAt (course : Course) (p : Nat) (b : ByteArray) : Prop :=
  ∀ k x, Bytes.at? b k = some x → ByteAt codec file course (p + k) x

/-- The entry at an index is rejected, and the reader goes on from there. -/
inductive Rejects (i : Nat) : Outcome TraceError Unit → Course → Prop where
  /-- No block has that length. What stands in the place of the block is read as entries. -/
  | tooLong {cause : TraceError} (h : codec.entryAt? file i = .error cause) :
      Rejects i (.error cause) ⟨.empty, i + lengthSize⟩
  /-- The block tells no size, or one that no chunk has. -/
  | unsized {e : Entry} {cause : TraceError} (he : codec.entryAt? file i = .ok (some e))
      (hsize : codec.announced e.block = .error cause) : Rejects i (.error cause) ⟨.empty, e.stop⟩
  /-- The block does not decode. The buffer stays. -/
  | undecodable {e : Entry} {size call : Nat} (he : codec.entryAt? file i = .ok (some e))
      (hsize : codec.announced e.block = .ok size)
      (hbad : (codec.decompress call e.block size).ending ≠ .ok ()) :
      Rejects i (codec.decompress call e.block size).ending
        ⟨Bytes.fit (codec.decompress call e.block size).output size, e.stop⟩

variable {codec file} {course : Course} {p : Nat} {a b : ByteArray}

theorem pieceAt_empty : PieceAt codec file course p .empty := by
  intro k x h
  cases h

theorem PieceAt.append (ha : PieceAt codec file course p a)
    (hb : PieceAt codec file course (p + a.size) b) : PieceAt codec file course p (a ++ b) := by
  intro k x h
  rw [Bytes.at?_append] at h
  split at h
  · exact ha k x h
  · next hk =>
    have hx := hb (k - a.size) x h
    rwa [Nat.add_assoc, Nat.add_sub_cancel' (Nat.le_of_not_lt hk)] at hx

theorem PieceAt.extract (h : PieceAt codec file course p b) (i j : Nat) :
    PieceAt codec file course (p + i) (b.extract i j) := by
  intro k x hx
  rw [Bytes.at?_extract] at hx
  split at hx
  · rw [Nat.add_assoc]
    exact h (i + k) x hx
  · cases hx

end Codec

namespace Reader

variable {σ : Type}

structure SameButPlace (r r' : Reader σ) : Prop where
  inner_eq : r.inner = r'.inner
  codec_eq : r.codec = r'.codec
  cache_eq : r.cache = r'.cache
  cursor_eq : r.cursor = r'.cursor
  exhausted_eq : r.exhausted = r'.exhausted
  decompressions_eq : r.decompressions = r'.decompressions

def SameStep (step step' : Outcome TraceError Unit × Reader σ) : Prop :=
  step.1 = step'.1 ∧ SameButPlace step.2 step'.2

structure Starts [LawfulSource σ] (codec : Codec) (file : ByteArray) (course : Course)
    (r : Reader σ) : Prop where
  codec_eq : r.codec = codec
  cursor_eq : r.cursor = 0
  cache_eq : r.cache = course.left
  exhausted_eq : r.exhausted = false
  at_index : Source.At r.inner file course.index

variable {r r' : Reader σ}

theorem SameButPlace.cacheBlock (h : SameButPlace r r') (block : ByteArray) (size skip : Nat) :
    SameStep (r.cacheBlock block size skip) (r'.cacheBlock block size skip) := by
  obtain ⟨⟩ := r
  obtain ⟨⟩ := r'
  obtain ⟨rfl, rfl, rfl, rfl, rfl, rfl⟩ := h
  unfold Reader.cacheBlock
  split <;> exact ⟨rfl, rfl, rfl, rfl, rfl, rfl, rfl⟩

theorem SameButPlace.settle (h : SameButPlace r r') (skip : Nat) (fetched : Fetched × σ) :
    SameStep (r.settle skip fetched) (r'.settle skip fetched) := by
  obtain ⟨⟩ := r
  obtain ⟨⟩ := r'
  obtain ⟨rfl, rfl, rfl, rfl, rfl, rfl⟩ := h
  unfold Reader.settle
  dsimp only [buffered, between]
  split
  · exact ⟨rfl, rfl, rfl, rfl, rfl, rfl, rfl⟩
  · exact ⟨rfl, rfl, rfl, rfl, rfl, rfl, rfl⟩
  · exact ⟨rfl, rfl, rfl, rfl, rfl, rfl, rfl⟩
  · split
    · exact ⟨rfl, rfl, rfl, rfl, rfl, rfl, rfl⟩
    · apply SameButPlace.cacheBlock
      exact ⟨rfl, rfl, rfl, rfl, rfl, rfl⟩

/-- What a load comes to does not depend on where the reader takes itself to be. -/
theorem SameButPlace.loadChunk [Source σ] (h : SameButPlace r r') (skip : Nat) :
    SameStep (r.loadChunk skip) (r'.loadChunk skip) := by
  have hfetched : r.fetched = r'.fetched := by
    rw [fetched, fetched, h.inner_eq, h.codec_eq]
  rw [loadChunk_eq, loadChunk_eq, hfetched]
  exact h.settle skip r'.fetched

section

variable [LawfulSource σ] {codec : Codec} {file : ByteArray} {course : Course} {i skip : Nat}

theorem Starts.of_same (h : Starts codec file course r) (hsame : SameButPlace r r') :
    Starts codec file course r' where
  codec_eq := hsame.codec_eq ▸ h.codec_eq
  cursor_eq := hsame.cursor_eq ▸ h.cursor_eq
  cache_eq := hsame.cache_eq ▸ h.cache_eq
  exhausted_eq := hsame.exhausted_eq ▸ h.exhausted_eq
  at_index := hsame.inner_eq ▸ h.at_index

inductive Loads (codec : Codec) (file : ByteArray) (i skip : Nat) :
    Outcome TraceError Unit × Reader σ → Prop where
  | ends {r : Reader σ} (h : codec.entryAt? file i = .ok none) (hcodec : r.codec = codec)
      (hex : r.exhausted = true) (hcache : r.cache = .empty) (hcursor : r.cursor = 0) :
      Loads codec file i skip (.ok (), r)
  | chunk {r : Reader σ} {e : Entry} {size : Nat} (he : codec.entryAt? file i = .ok (some e))
      (hsize : codec.announced e.block = .ok size)
      (hstarts : Starts codec file ⟨r.cache, e.stop⟩ r) (hcache : r.cache.size = size)
      (hdecoded : size ≤ skip ∨ ∃ call, (codec.decompress call e.block size).ending = .ok () ∧
        r.cache = Bytes.fit (codec.decompress call e.block size).output size) :
      Loads codec file i skip (.ok (), r)
  | rejected {r : Reader σ} {o : Outcome TraceError Unit} {course : Course} (ho : o ≠ .ok ())
      (h : codec.Rejects file i o course) (hstarts : Starts codec file course r) :
      Loads codec file i skip (o, r)

theorem Loads.of_same {o : Outcome TraceError Unit} (h : Loads codec file i skip (o, r))
    (hsame : SameButPlace r r') : Loads codec file i skip (o, r') := by
  cases h with
  | ends h hcodec hex hcache hcursor =>
    exact .ends h (hsame.codec_eq ▸ hcodec) (hsame.exhausted_eq ▸ hex) (hsame.cache_eq ▸ hcache)
      (hsame.cursor_eq ▸ hcursor)
  | chunk he hsize hstarts hcache hdecoded =>
    rw [hsame.cache_eq] at hstarts hcache hdecoded
    exact .chunk he hsize (hstarts.of_same hsame) hcache hdecoded
  | rejected ho h hstarts => exact .rejected ho h (hstarts.of_same hsame)

theorem loads_loadChunk_at_position (hex : r.exhausted = false)
    (hat : Source.At r.inner file r.position) (skip : Nat) :
    Loads r.codec file r.position skip (r.loadChunk skip) := by
  cases he : r.codec.entryAt? file r.position with
  | error cause =>
    obtain ⟨inner, hat', hload⟩ := loadChunk_tooLong hat he skip
    rw [hload]
    exact .rejected nofun (.tooLong he) ⟨rfl, rfl, rfl, hex, hat'⟩
  | ok found =>
    cases found with
    | none =>
      obtain ⟨inner, bufferSize, log, hload⟩ :=
        loadChunk_ends hat (Codec.entryAt?_eq_none.mp he) skip
      rw [hload]
      exact .ends he rfl rfl rfl rfl
    | some e =>
      obtain ⟨inner, hat', hload⟩ := loadChunk_found hat he skip
      rw [hload]
      cases hsize : r.codec.announced e.block with
      | error cause => exact .rejected nofun (.unsized he hsize) ⟨rfl, rfl, rfl, hex, hat'⟩
      | ok size =>
        dsimp only [cacheBlock, behind, between]
        by_cases hskip : skip < size
        · rw [if_pos hskip]
          by_cases hok : (r.codec.decompress r.decompressions e.block size).ending = .ok ()
          · rw [hok]
            exact .chunk he hsize ⟨rfl, rfl, rfl, hex, hat'⟩ (Bytes.size_fit _ _)
              (.inr ⟨_, hok, rfl⟩)
          · exact .rejected hok (.undecodable he hsize hok) ⟨rfl, rfl, rfl, hex, hat'⟩
        · rw [if_neg hskip]
          exact .chunk he hsize ⟨rfl, rfl, rfl, hex, hat'⟩ (Bytes.size_zeros _)
            (.inl (Nat.le_of_not_lt hskip))

theorem loads_loadChunk (hcodec : r.codec = codec) (hex : r.exhausted = false)
    (hat : Source.At r.inner file i) (skip : Nat) :
    Loads codec file i skip (r.loadChunk skip) := by
  have hload := loads_loadChunk_at_position (r := { r with position := i }) hex hat skip
  have hplace : SameButPlace { r with position := i } r := ⟨rfl, rfl, rfl, rfl, rfl, rfl⟩
  obtain ⟨hout, hsame⟩ := hplace.loadChunk skip
  subst hcodec
  generalize { r with position := i }.loadChunk skip = step at hload hout hsame
  obtain ⟨o, r₀⟩ := step
  rw [← Prod.eta (r.loadChunk skip), ← hout]
  exact hload.of_same hsame

end

end Reader

end TraceCapture
