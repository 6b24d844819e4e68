import TraceCapture.Proofs.Block.Lz4.Lawful
import TraceCapture.Proofs.Block.Lz4.Lengths
import TraceCapture.Proofs.Reader.Bounds

set_option autoImplicit false

namespace TraceCapture

open Reader (Bounded Moment ReaderCall)

namespace Reader

variable {file : ByteArray} {codec : Codec}

theorem Bounded.remaining_le {r : Reader MemorySource} (h : Bounded file codec r) :
    Source.remaining r.inner ≤ file.size := by
  rw [← h.data_eq]
  exact Nat.sub_le _ _

theorem Bounded.pending_le {r : Reader MemorySource} (h : Bounded file codec r) :
    r.pending ≤ 1 + file.size := by
  have hle := h.remaining_le
  unfold pending
  split <;> omega

theorem Bounded.not_loadPanics {first : Reader MemorySource} (h : Bounded file codec first)
    (hfile : file.size < Word.size) (hcodec : codec.Returns file.size) (v : Violation) :
    ¬ LoadPanics (· < Word.size) first v := by
  rintro ⟨r, skip, hr, hpanic⟩
  have hbounded := h.moves hfile hr
  obtain ⟨call, block, room, hblock, hv⟩ := loadChunk_panicked hpanic
  rw [hbounded.codec_eq] at hv
  exact hcodec call block room (Nat.le_trans hblock hbounded.remaining_le) v hv

end Reader

/-- Whatever a file holds and whatever calls its reader gets: the reader stays within its bounds,
also in the middle of a call and after an error; a load that succeeds uses up part of what is
pending, so calls come to an end; and none panics if the codec answers for the blocks that fit into
the file. -/
theorem any_file_is_safe_to_read (file : ByteArray) (faults : SourceFaults) (codec : Codec)
    (hfile : file.size < Word.size)
    (hlength : ∀ n, faults.fakeLength = some n → n < Word.size) :
    (∀ r, Reader.start (MemorySource.new file faults) codec = .ok r →
      Moment (MemorySource.new file faults) codec r) ∧
    (∀ r, Moment (MemorySource.new file faults) codec r →
      Bounded file codec r ∧ r.percentRead ≤ 100 ∧ r.pending ≤ 1 + file.size ∧
      (∀ skip next, r.exhausted = false → r.loadChunk skip = (.ok (), next) →
        next.pending < r.pending) ∧
      ∀ call : ReaderCall, call.Within (· < Word.size) →
        Moment (MemorySource.new file faults) codec (call.perform r)) ∧
    (codec.Returns file.size →
      (∀ v, Reader.start (MemorySource.new file faults) codec ≠ .panicked v) ∧
      ∀ r, Moment (MemorySource.new file faults) codec r →
        ∀ call : ReaderCall, call.Within (· < Word.size) → ∀ v, call.outcome r ≠ .panicked v) ∧
    ∀ p, p = .unchecked ∨ file.size ≤ Lz4.longestSummable → (Codec.lz4 p).Returns file.size := by
  refine ⟨fun r => Reader.moves_start _, fun r hr => ?_, fun hcodec => ⟨fun v hv => ?_, ?_⟩,
    fun p hp => Lz4.returns_lz4 hp⟩
  · have hbounded := hr.bounded hfile hlength
    exact ⟨hbounded, r.percentRead_le, hbounded.pending_le,
      fun skip next hex hload => Reader.pending_loadChunk hex hload, fun call => hr.call⟩
  · obtain ⟨e, he⟩ | ⟨first, hfirst, hload⟩ :=
      Reader.start_cases (MemorySource.new file faults) codec
    · rw [he] at hv
      cases hv
    · rw [hload, Outcome.map_eq_panicked] at hv
      exact (hfirst.bounded hfile hlength).not_loadPanics hfile hcodec v ⟨first, 0, .refl, hv⟩
  · rintro r ⟨first, hfirst, hmoves⟩ call hcall v hv
    exact (hfirst.bounded hfile hlength).not_loadPanics hfile hcodec v
      ((hmoves.call hcall).panics v hv)

def badLengthFile : ByteArray := ⟨#[0x61, 0x74, 4, 0, 0, 0, 0, 0, 0, 0, 255, 255, 255, 255]⟩

theorem entryAt?_badLengthFile :
    (Codec.lz4 .checked).entryAt? badLengthFile 10 = .error (.corrupt .chunkTooLong) := by
  have hlength : Bytes.toU32? (badLengthFile.extract 10 14) = some 4294967295 := rfl
  have hlimit : (Codec.lz4 .checked).maxCompressedSize maxChunkSize < 4294967295 := by decide
  simp only [Codec.entryAt?, lengthSize, Nat.reduceAdd, hlength, if_pos hlimit]

/-- An empty chunk and a length that no block has: reading fails there, and any call may follow. -/
theorem any_file_is_safe_to_read_with_a_bad_length :
    let file : ByteArray := ⟨#[0x61, 0x74, 4, 0, 0, 0, 0, 0, 0, 0, 255, 255, 255, 255]⟩
    ∃ r, Reader.start (MemorySource.new file .none) (.lz4 .checked) = .ok r ∧
      (r.readBytes 1).1 = .error (.corrupt .chunkTooLong) ∧
      Bounded file (.lz4 .checked) (r.readBytes 1).2 ∧
      ∀ call : ReaderCall, call.Within (· < Word.size) →
        ∀ v, call.outcome (r.readBytes 1).2 ≠ .panicked v := by
  intro file
  have hsound : (MemorySource.new file .none).Sound := MemorySource.sound_new (by decide)
  have hfile : file = magic ++ (Entry.written (Bytes.ofU32 0) ++ ⟨#[255, 255, 255, 255]⟩) := rfl
  obtain ⟨r, hstart, hcodec, hat, hposition, h0, hlive⟩ :=
    Reader.start_first ⟨hsound.faultFree, rfl, rfl⟩ hfile (by decide) Lz4.encodes_empty
  have hentry : r.codec.entryAt? file r.position = .error (.corrupt .chunkTooLong) := by
    have hten : (magic ++ Entry.written (Bytes.ofU32 0)).size = 10 := rfl
    rw [hcodec, hposition, hten]
    exact entryAt?_badLengthFile
  obtain ⟨_, -, hload⟩ := Reader.loadChunk_tooLong hat hentry 0
  have hread : (r.readBytes 1).1 = .error (.corrupt .chunkTooLong) :=
    congrArg Prod.fst (Reader.readOn_of_load_failed Nat.one_pos h0 hlive hload (by simp))
  have hlength : ∀ n, SourceFaults.none.fakeLength = some n → n < Word.size := by
    intro n h
    cases h
  obtain ⟨hopens, hmoments, hcalls, hreturns⟩ :=
    any_file_is_safe_to_read file .none (.lz4 .checked) (by decide) hlength
  obtain ⟨-, -, -, -, hnext⟩ := hmoments r (hopens r hstart)
  have hbehind := hnext (.read (.bytes 1)) trivial
  exact ⟨r, hstart, hread, (hmoments _ hbehind).1,
    (hcalls (hreturns _ (.inr (by decide)))).2 _ hbehind⟩

def endlessFile (n : Nat) : ByteArray :=
  magic ++ Entry.writtenAll [Bytes.ofU32 0, Lz4.endlessBlock n]

theorem endlessFile_eq (n : Nat) : endlessFile n =
    magic ++ (Entry.written (Bytes.ofU32 0) ++ (Entry.written (Lz4.endlessBlock n) ++ .empty)) :=
  rfl

theorem size_endlessFile (n : Nat) : (endlessFile n).size = n + 19 := by
  have hmagic : magic.size = 2 := rfl
  simp only [endlessFile_eq, ByteArray.size_append, Entry.size_written, Bytes.size_ofU32,
    Lz4.size_endlessBlock, ByteArray.size_empty, hmagic, lengthSize]
  omega

/-- In a checked build a literal length that is long enough, in a block that is short enough, panics
through the reader. -/
theorem readBytes_endlessFile {n : Nat} (hn : Bytes.u32Limit ≤ 255 * n)
    (hmax : n + 5 ≤ (Codec.lz4 .checked).maxCompressedSize maxChunkSize) :
    ∃ r, Reader.start (MemorySource.new (endlessFile n) .none) (.lz4 .checked) = .ok r ∧
      (r.readBytes 1).1 = .panicked .additionOverflow := by
  have hlimit : (Codec.lz4 .checked).maxCompressedSize maxChunkSize < Bytes.u32Limit := by decide
  have hsize : (endlessFile n).size < Word.max := by
    rw [size_endlessFile]
    unfold Bytes.u32Limit at hlimit
    unfold Word.max Word.size
    omega
  obtain ⟨r, hstart, hcodec, hat, hposition, h0, hlive⟩ := Reader.start_first
    ⟨(MemorySource.sound_new hsize).faultFree, rfl, rfl⟩ (endlessFile_eq n) (by decide)
    Lz4.encodes_empty
  refine ⟨r, hstart, ?_⟩
  have hentry : r.codec.entryAt? (endlessFile n) r.position =
      .ok (some ⟨r.position, Lz4.endlessBlock n⟩) := by
    rw [Codec.entryAt?_eq_some, hcodec, hposition, endlessFile_eq, ← ByteArray.append_assoc]
    rw [← Lz4.size_endlessBlock] at hmax
    refine ⟨Entry.at?_behind _ ?_ (Nat.lt_of_le_of_lt hmax hlimit), hmax⟩
    rw [Lz4.size_endlessBlock]
    exact Nat.succ_pos _
  have hannounced : r.codec.announced (Lz4.endlessBlock n) = .ok 1 := by
    rw [hcodec, Codec.announced, Lz4.decompressedSize_endlessBlock]
    rfl
  have hload := Reader.loadChunk_decoding hat hentry hannounced Nat.one_pos
  rw [hcodec, Lz4.decompress_endlessBlock hn] at hload
  exact congrArg Prod.fst
    (Reader.readOn_of_load_failed Nat.one_pos h0 hlive (Prod.ext hload rfl) (by simp))

theorem endless_literal_panics :
    ∃ r, Reader.start (MemorySource.new (endlessFile 16843010) .none) (.lz4 .checked) = .ok r ∧
      (r.readBytes 1).1 = .panicked .additionOverflow :=
  readBytes_endlessFile (by decide) (by decide)

end TraceCapture
