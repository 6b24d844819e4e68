import TraceCapture.Proofs.Stream.Stepwise
import TraceCapture.Proofs.Trace.Decoding
import TraceCapture.Trace.Reader

set_option autoImplicit false

/-!
# What a load can come to

A load asks the source for a length and, if a block can be that long, for the block. What the reader
is then follows from what the source has given and from what the reader was.
-/

namespace TraceCapture

/-- What a source gives of the next entry, with the length of the block it was asked for. -/
inductive Fetched where
  | fails (cause : TraceError) (length? : Option Nat)
  | ends (length? : Option Nat)
  | block (length : Nat) (bytes : ByteArray)

def Fetched.length? : Fetched → Option Nat
  | fails _ length? | ends length? => length?
  | block length _ => some length

namespace Source

variable {σ : Type} [Source σ] {s t : σ} {limit length : Nat}

def fetchBlock (s : σ) (length : Nat) : Fetched × σ :=
  match readExact? s length with
  | (.error cause, s) => (.fails (.io cause) (some length), s)
  | (.ok none, s) => (.ends (some length), s)
  | (.ok (some bytes), s) => (.block length bytes, s)

def fetch (s : σ) (limit : Nat) : Fetched × σ :=
  match readExact? s lengthSize with
  | (.error cause, s) => (.fails (.io cause) none, s)
  | (.ok none, s) => (.ends none, s)
  | (.ok (some b), s) =>
    let length := (Bytes.toU32? b).getD 0
    if length = 0 then (.ends none, s)
    else if limit < length then (.fails (.corrupt .chunkTooLong) none, s)
    else fetchBlock s length

theorem of_fetchBlock {bytes : ByteArray} {n : Nat}
    (h : fetchBlock s length = (.block n bytes, t)) :
    n = length ∧ readExact? s length = (.ok (some bytes), t) := by
  unfold fetchBlock at h
  split at h <;> cases h
  next hread => exact ⟨rfl, hread⟩

theorem fetch_keeps {P : σ → Prop} (hP : ∀ s n, P s → P (readExact? s n).2) (h : P s)
    (limit : Nat) : P (fetch s limit).2 := by
  have hread : ∀ {s t : σ} {n : Nat} {o : Except IoError (Option ByteArray)},
      P s → readExact? s n = (o, t) → P t := fun {s _ n _} hs heq => by
    have ht := hP s n hs
    rwa [heq] at ht
  unfold fetch
  dsimp only
  split
  · exact hread h ‹_›
  · exact hread h ‹_›
  · have hnext := hread h ‹_›
    split
    · exact hnext
    split
    · exact hnext
    unfold fetchBlock
    split <;> exact hread hnext ‹_›

/-- A block is asked for behind a length that it can have. -/
theorem of_fetch {f : Fetched} (h : fetch s limit = (f, t)) (hlength : f.length? = some length) :
    ∃ b u, readExact? s lengthSize = (.ok (some b), u) ∧ 0 < length ∧ length ≤ limit ∧
      fetchBlock u length = (f, t) := by
  unfold fetch at h
  dsimp only at h
  split at h
  · cases h
    cases hlength
  · cases h
    cases hlength
  · next b u hread =>
    split at h
    · cases h
      cases hlength
    · next h0 =>
      split at h
      · cases h
        cases hlength
      · next hlimit =>
        have heq : (Bytes.toU32? b).getD 0 = length := by
          refine Option.some.inj (Eq.trans ?_ hlength)
          unfold fetchBlock at h
          split at h <;> cases h <;> rfl
        rw [heq] at h0 hlimit h
        exact ⟨b, u, hread, Nat.pos_of_ne_zero h0, Nat.le_of_not_lt hlimit, h⟩

theorem fetch_of_length {b : ByteArray} (hfront : readExact? s lengthSize = (.ok (some b), t))
    (hb : Bytes.toU32? b = some length) (hpos : 0 < length) (hlimit : length ≤ limit) :
    fetch s limit = fetchBlock t length := by
  unfold fetch
  simp only [hfront, hb, Option.getD_some]
  rw [if_neg (Nat.ne_of_gt hpos), if_neg (Nat.not_lt_of_le hlimit)]

theorem fetch_of_reads {b bytes : ByteArray} {u : σ}
    (hfront : readExact? s lengthSize = (.ok (some b), t)) (hb : Bytes.toU32? b = some length)
    (hpos : 0 < length) (hlimit : length ≤ limit)
    (hblock : readExact? t length = (.ok (some bytes), u)) :
    fetch s limit = (.block length bytes, u) := by
  rw [fetch_of_length hfront hb hpos hlimit, fetchBlock, hblock]

theorem fetch_of_readFor {k : Nat} {b bytes : ByteArray} {u : σ}
    (hfront : readFor k s lengthSize .empty = some (.ok b, t)) (hb : Bytes.toU32? b = some length)
    (hpos : 0 < length) (hlimit : length ≤ limit)
    (hblock : readFor k t length .empty = some (.ok bytes, u)) :
    fetch s limit = (.block length bytes, u) :=
  fetch_of_reads (readExact?_of_readFor hfront) hb hpos hlimit (readExact?_of_readFor hblock)

theorem fetch_of_end (h : readExact? s lengthSize = (.ok none, t)) :
    fetch s limit = (.ends none, t) := by
  rw [fetch, h]

end Source

namespace Reader

variable {σ : Type}

/-- The reader between two chunks: nothing is cached of the entry at its position. -/
def between (r : Reader σ) (inner : σ) : Reader σ :=
  { r with inner, chunk := r.position, cursor := 0, cache := .empty }

def buffered (r : Reader σ) (inner : σ) (length? : Option Nat) : Reader σ :=
  { r.between inner with bufferSize := length?.getD r.bufferSize }

/-- What a load comes to, given what its source gives. -/
def settle (r : Reader σ) (skip : Nat) (fetched : Fetched × σ) :
    Outcome TraceError Unit × Reader σ :=
  let r := r.buffered fetched.2 fetched.1.length?
  match fetched.1 with
  | .fails cause _ => (.error cause, r)
  | .ends none => (.ok (), r.markExhausted)
  | .ends (some length) => (.ok (), (r.record (.chunkTruncated r.chunk length)).markExhausted)
  | .block length block =>
    let r := { r with position := r.chunk + lengthSize + length }
    match r.codec.announced block with
    | .error cause => (.error cause, r)
    | .ok size => r.cacheBlock block size skip

theorem settle_decoding {r : Reader σ} {inner : σ} {block : ByteArray} {length size skip : Nat}
    {d : Decoding} (hsize : r.codec.announced block = .ok size) (hskip : skip < size)
    (hd : r.codec.decompress r.decompressions block size = d) :
    r.settle skip (.block length block, inner) = (d.ending, { r.buffered inner (some length) with
      position := r.position + lengthSize + length, cache := Bytes.fit d.output size
      decompressions := r.decompressions + 1 }) := by
  simp only [settle, Fetched.length?, buffered, between, hsize, cacheBlock, if_pos hskip, hd]

theorem settle_encoded {r : Reader σ} {inner : σ} {block chunk : ByteArray} {length skip : Nat}
    (hc : r.codec.Encodes block chunk) (hskip : skip < chunk.size) :
    r.settle skip (.block length block, inner) = (.ok (), { r.buffered inner (some length) with
      position := r.position + lengthSize + length, cache := chunk
      decompressions := r.decompressions + 1 }) := by
  rw [settle_decoding hc.announced_eq hskip (hc.decompress_eq _ (Nat.zero_lt_of_lt hskip)),
    Bytes.fit_size]

theorem inner_cacheBlock (r : Reader σ) (block : ByteArray) (size skip : Nat) :
    (r.cacheBlock block size skip).2.inner = r.inner ∧
      (r.cacheBlock block size skip).2.codec = r.codec := by
  unfold cacheBlock
  split <;> exact ⟨rfl, rfl⟩

theorem inner_settle (r : Reader σ) (skip : Nat) (fetched : Fetched × σ) :
    (r.settle skip fetched).2.inner = fetched.2 ∧ (r.settle skip fetched).2.codec = r.codec := by
  unfold settle
  dsimp only
  split
  · exact ⟨rfl, rfl⟩
  · exact ⟨rfl, rfl⟩
  · exact ⟨rfl, rfl⟩
  · split
    · exact ⟨rfl, rfl⟩
    · exact inner_cacheBlock _ _ _ _

variable [Source σ]

def fetched (r : Reader σ) : Fetched × σ :=
  Source.fetch r.inner (r.codec.maxCompressedSize maxChunkSize)

theorem size_fetched_le {r : Reader σ} {length : Nat} {block : ByteArray}
    (h : r.fetched.1 = .block length block) : block.size ≤ Source.remaining r.inner := by
  obtain ⟨b, inner, hfront, -, -, hblock⟩ := Source.of_fetch (Prod.ext h rfl) rfl
  exact Nat.le_trans (Source.readExact?_size_le (Source.of_fetchBlock hblock).2)
    (Source.readExact?_remaining_le hfront)

theorem loadChunk_eq (r : Reader σ) (skip : Nat) : r.loadChunk skip = r.settle skip r.fetched := by
  unfold loadChunk fetched Source.fetch
  dsimp only
  obtain ⟨_ | _ | b, inner⟩ := Source.readExact? r.inner lengthSize
  · rfl
  · rfl
  dsimp only
  split
  · rfl
  split
  · rfl
  unfold loadBlock Source.fetchBlock
  dsimp only
  obtain ⟨_ | _ | block, inner⟩ := Source.readExact? inner ((Bytes.toU32? b).getD 0)
  · rfl
  · rfl
  simp only [settle, buffered, between, Fetched.length?, Option.getD_some, Codec.announced]
  cases r.codec.decompressedSize block with
  | error cause => rfl
  | ok size =>
    dsimp only
    split <;> rfl

end Reader

end TraceCapture
