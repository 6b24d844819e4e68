import Mathlib.Algebra.GroupWithZero.Nat
import Mathlib.Data.List.Forall2
import TraceCapture.Proofs.Bytes
import TraceCapture.Trace.Codec
import TraceCapture.Trace.Entry

set_option autoImplicit false

namespace TraceCapture

/-- A block that a reader accepts, and its chunk. -/
structure Codec.Encodes (codec : Codec) (block chunk : ByteArray) : Prop where
  block_pos : 0 < block.size
  block_le : block.size ≤ codec.maxCompressedSize maxChunkSize
  size_eq : codec.decompressedSize block = .ok chunk.size
  size_le : chunk.size ≤ maxChunkSize
  decompress_eq : ∀ call, 0 < chunk.size → codec.decompress call block chunk.size = ⟨chunk, .ok ()⟩

/-- A writer's blocks are blocks that a reader accepts. -/
theorem Codec.Lawful.encodes {codec : Codec} (h : codec.Lawful) {call room : Nat}
    {chunk block : ByteArray} (hpos : 0 < chunk.size) (hle : chunk.size ≤ maxChunkSize)
    (hc : codec.compress call chunk room = .ok block) : codec.Encodes block chunk where
  block_pos := (h.compress_size call chunk room block hpos hc).1
  block_le := Nat.le_trans (h.compress_size call chunk room block hpos hc).2 (h.mono _ _ hle)
  size_eq := h.decompressedSize_compress call chunk room block hpos hc
  size_le := hle
  decompress_eq call' _ := h.decompress_compress call call' chunk room block hpos hc

namespace Entry

def written (block : ByteArray) : ByteArray := Bytes.ofU32 block.size ++ block

theorem size_written (block : ByteArray) : (written block).size = lengthSize + block.size := by
  rw [written, ByteArray.size_append, Bytes.size_ofU32, lengthSize]

theorem toU32?_behind {pre block : ByteArray} (rest : ByteArray) (h : block.size < Bytes.u32Limit) :
    Bytes.toU32? ((pre ++ (written block ++ rest)).extract pre.size (pre.size + lengthSize)) =
      some block.size := by
  have hlen : lengthSize = (Bytes.ofU32 block.size).size := rfl
  rw [written, ByteArray.append_assoc, hlen, Bytes.extract_append_middle]
  simpa using Bytes.toU32?_ofU32_append h .empty

theorem at?_behind {pre block : ByteArray} (rest : ByteArray) (hpos : 0 < block.size)
    (h : block.size < Bytes.u32Limit) :
    at? (pre ++ (written block ++ rest)) pre.size = some ⟨pre.size, block⟩ := by
  have hlen : pre.size + lengthSize = (pre ++ Bytes.ofU32 block.size).size := by
    rw [ByteArray.size_append, Bytes.size_ofU32, lengthSize]
  have hfile : pre ++ (written block ++ rest) =
      pre ++ Bytes.ofU32 block.size ++ (block ++ rest) := by
    simp only [written, ByteArray.append_assoc]
  have hsize : ¬ (block.size = 0 ∨
      (pre ++ (written block ++ rest)).size < pre.size + lengthSize + block.size) := by
    simp only [ByteArray.size_append, size_written]
    omega
  rw [at?, toU32?_behind rest h]
  dsimp only
  rw [if_neg hsize, hfile, hlen, Bytes.extract_append_middle]

theorem toU32?_end (file : ByteArray) :
    Bytes.toU32? (file.extract file.size (file.size + lengthSize)) = none := by
  rw [Bytes.toU32?]
  refine dif_neg ?_
  rw [ByteArray.size_extract]
  omega

theorem at?_end (file : ByteArray) : at? file file.size = none := by
  rw [at?, toU32?_end]

theorem toU32?_eq_some {file : ByteArray} {i n : Nat}
    (h : Bytes.toU32? (file.extract i (i + lengthSize)) = some n) : i + lengthSize ≤ file.size := by
  unfold Bytes.toU32? at h
  split at h
  · next hs =>
    rw [ByteArray.size_extract] at hs
    unfold lengthSize at *
    omega
  · cases h

theorem of_at? {file : ByteArray} {i : Nat} {e : Entry} (h : at? file i = some e) :
    e.start = i ∧ Bytes.toU32? (file.extract i (i + lengthSize)) = some e.block.size ∧
      e.block.size ≠ 0 ∧ i + lengthSize + e.block.size ≤ file.size ∧
      e.block = file.extract (i + lengthSize) (i + lengthSize + e.block.size) := by
  unfold at? at h
  split at h
  · cases h
  · next n hn =>
    split at h
    · cases h
    · next hfull =>
      cases h
      have hsize : (file.extract (i + lengthSize) (i + lengthSize + n)).size = n := by
        rw [ByteArray.size_extract]
        omega
      refine ⟨rfl, ?_, ?_, ?_, ?_⟩ <;> simp only [hsize]
      · exact hn
      · omega
      · omega

def writtenAll (blocks : List ByteArray) : ByteArray := Bytes.concat (blocks.map written)

theorem writtenAll_cons (block : ByteArray) (blocks : List ByteArray) :
    writtenAll (block :: blocks) = written block ++ writtenAll blocks :=
  rfl

theorem writtenAll_append (as bs : List ByteArray) :
    writtenAll (as ++ bs) = writtenAll as ++ writtenAll bs := by
  rw [writtenAll, List.map_append, Bytes.concat_append]
  rfl

theorem writtenAll_concat (blocks : List ByteArray) (block : ByteArray) :
    writtenAll (blocks ++ [block]) = writtenAll blocks ++ written block := by
  rw [writtenAll_append, writtenAll_cons]
  exact congrArg _ ByteArray.append_empty

theorem listFrom_writtenAll (pre : ByteArray) (blocks : List ByteArray)
    (h : ∀ block ∈ blocks, 0 < block.size ∧ block.size < Bytes.u32Limit) :
    (listFrom (pre ++ writtenAll blocks) pre.size).map block = blocks := by
  induction blocks generalizing pre with
  | nil =>
    rw [writtenAll, List.map_nil, Bytes.concat, ByteArray.append_empty, listFrom]
    split
    · rfl
    · next e he =>
      rw [at?_end] at he
      cases he
  | cons b bs ih =>
    have hb := h b List.mem_cons_self
    have hat : at? (pre ++ (written b ++ writtenAll bs)) pre.size = some ⟨pre.size, b⟩ :=
      at?_behind (writtenAll bs) hb.1 hb.2
    have hstop : (⟨pre.size, b⟩ : Entry).stop = (pre ++ written b).size := by
      rw [stop, ByteArray.size_append, size_written, Nat.add_assoc]
    rw [writtenAll_cons, listFrom]
    split
    · next he =>
      rw [hat] at he
      cases he
    · next e he =>
      rw [hat] at he
      cases he
      rw [hstop, ← ByteArray.append_assoc, List.map_cons,
        ih (pre ++ written b) fun c hc => h c (List.mem_cons_of_mem _ hc)]

/-- The file ends at index `i`: there is no length there in full, or it is zero, or it is a length
that blocks may have and the block is not there in full. -/
def Ends (codec : Codec) (file : ByteArray) (i : Nat) : Prop :=
  match Bytes.toU32? (file.extract i (i + lengthSize)) with
  | none => True
  | some n => n = 0 ∨ n ≤ codec.maxCompressedSize maxChunkSize ∧ file.size < i + lengthSize + n

end Entry

/-- The entry that a walk over a file meets at index `i`, or nothing where the entries end. -/
def Codec.entryAt? (codec : Codec) (file : ByteArray) (i : Nat) :
    Except TraceError (Option Entry) :=
  match Bytes.toU32? (file.extract i (i + lengthSize)) with
  | none => .ok none
  | some n =>
    if codec.maxCompressedSize maxChunkSize < n then .error (.corrupt .chunkTooLong)
    else .ok (Entry.at? file i)

theorem Codec.entryAt?_eq_none {codec : Codec} {file : ByteArray} {i : Nat} :
    codec.entryAt? file i = .ok none ↔ Entry.Ends codec file i := by
  unfold entryAt? Entry.Ends Entry.at?
  cases Bytes.toU32? (file.extract i (i + lengthSize)) with
  | none => simp
  | some n =>
    by_cases hmax : codec.maxCompressedSize maxChunkSize < n
    · simp [hmax]
      omega
    · simp [hmax]
      omega

theorem Codec.entryAt?_eq_some {codec : Codec} {file : ByteArray} {i : Nat} {e : Entry} :
    codec.entryAt? file i = .ok (some e) ↔
      Entry.at? file i = some e ∧ e.block.size ≤ codec.maxCompressedSize maxChunkSize := by
  constructor
  · intro h
    unfold entryAt? at h
    split at h
    · cases h
    · next n hn =>
      split at h
      · cases h
      · next hmax =>
        injection h with he
        obtain ⟨-, hlen, -⟩ := Entry.of_at? he
        rw [hn] at hlen
        cases hlen
        exact ⟨he, Nat.le_of_not_lt hmax⟩
  · rintro ⟨he, hle⟩
    obtain ⟨-, hlen, -⟩ := Entry.of_at? he
    unfold entryAt?
    simp only [hlen, he]
    rw [if_neg (Nat.not_lt_of_le hle)]

def Codec.announced (codec : Codec) (block : ByteArray) : Except TraceError Nat :=
  match codec.decompressedSize block with
  | .error e => .error e
  | .ok size => if maxChunkSize < size then .error (.corrupt .chunkTooLarge) else .ok size

theorem Codec.announced_le {codec : Codec} {block : ByteArray} {size : Nat}
    (h : codec.announced block = .ok size) : size ≤ maxChunkSize := by
  unfold announced at h
  split at h
  · cases h
  · split at h <;> cases h
    next hle => exact Nat.le_of_not_lt hle

theorem Codec.Encodes.announced_eq {codec : Codec} {block chunk : ByteArray}
    (h : codec.Encodes block chunk) : codec.announced block = .ok chunk.size := by
  simp [announced, h.size_eq, Nat.not_lt_of_le h.size_le]

theorem Codec.blocks_lt {codec : Codec} (hmax : codec.maxCompressedSize maxChunkSize <
    Bytes.u32Limit) {blocks chunks : List ByteArray}
    (h : List.Forall₂ codec.Encodes blocks chunks) :
    ∀ b ∈ blocks, 0 < b.size ∧ b.size < Bytes.u32Limit := by
  induction h with
  | nil => exact fun b hb => nomatch hb
  | cons hbc _ ih =>
    intro b hb
    obtain rfl | hb := List.mem_cons.mp hb
    · exact ⟨hbc.block_pos, Nat.lt_of_le_of_lt hbc.block_le hmax⟩
    · exact ih b hb

inductive Codec.Decodes (codec : Codec) (file : ByteArray) : Nat → List ByteArray → Prop where
  | ends {i : Nat} (h : Entry.Ends codec file i) : Decodes codec file i []
  | entry {i : Nat} {e : Entry} {chunk : ByteArray} {chunks : List ByteArray}
      (he : Entry.at? file i = some e) (hc : codec.Encodes e.block chunk)
      (rest : Decodes codec file e.stop chunks) : Decodes codec file i (chunk :: chunks)

/-- Entries that were written decode to the chunks that their blocks encode, whatever stands behind
them, if the file ends there. -/
theorem Codec.decodes_writtenAll_append {codec : Codec}
    (hmax : codec.maxCompressedSize maxChunkSize < Bytes.u32Limit) {blocks chunks : List ByteArray}
    (h : List.Forall₂ codec.Encodes blocks chunks) {tail : ByteArray}
    (htail : ∀ pre, Entry.Ends codec (pre ++ tail) pre.size) (pre : ByteArray) :
    codec.Decodes (pre ++ (Entry.writtenAll blocks ++ tail)) pre.size chunks := by
  induction h generalizing pre with
  | nil =>
    rw [Entry.writtenAll, List.map_nil, Bytes.concat, ByteArray.empty_append]
    exact .ends (htail pre)
  | @cons b c bs cs hb _ ih =>
    have hstop : (⟨pre.size, b⟩ : Entry).stop = (pre ++ Entry.written b).size := by
      rw [Entry.stop, ByteArray.size_append, Entry.size_written, Nat.add_assoc]
    have hlt := Nat.lt_of_le_of_lt hb.block_le hmax
    rw [Entry.writtenAll_cons, ByteArray.append_assoc]
    refine .entry (Entry.at?_behind _ hb.block_pos hlt) hb ?_
    rw [hstop, ← ByteArray.append_assoc]
    exact ih _

theorem Codec.decodes_writtenAll {codec : Codec} (hmax : codec.maxCompressedSize maxChunkSize <
    Bytes.u32Limit) {blocks chunks : List ByteArray} (h : List.Forall₂ codec.Encodes blocks chunks)
    (pre : ByteArray) :
    codec.Decodes (pre ++ Entry.writtenAll blocks) pre.size chunks := by
  have hend : ∀ pre, Entry.Ends codec (pre ++ .empty) pre.size := by
    intro pre
    rw [ByteArray.append_empty, Entry.Ends, Entry.toU32?_end]
    trivial
  have hall := decodes_writtenAll_append hmax h hend pre
  rwa [ByteArray.append_empty] at hall

end TraceCapture
