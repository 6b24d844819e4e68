import TraceCapture.Proofs.OffsetOrder
import TraceCapture.Proofs.Reader.Skipping

set_option autoImplicit false

namespace TraceCapture

namespace Reader

variable {σ : Type} [LawfulSource σ] {codec : Codec} {file : ByteArray} {chunks : List ByteArray}
  {r : Reader σ} {p : Nat}

theorem StandsAt.endOfData_iff (hd : codec.Decodes file magic.size chunks)
    (h : StandsAt codec file chunks r p) : r.endOfData = true ↔
      r.currentOffset = ⟨Entry.after file magic.size chunks.length, 0⟩ := by
  refine ⟨h.currentOffset_of_endOfData, fun hoffset => ?_⟩
  obtain ⟨k, hcaches, -⟩ := h
  have hchunk : Entry.after file magic.size k = Entry.after file magic.size chunks.length :=
    hcaches.chunk_eq.symm.trans (congrArg Offset.chunk hoffset)
  obtain ⟨-, hex⟩ | ⟨hlt, -⟩ := hcaches.next
  · obtain ⟨-, hsize⟩ := hcaches.exhausted hex
    simp [endOfData, available, hex, hsize]
  · have hbefore := Codec.after_lt_after (hd.decodeFrom_eq 0) hlt (Nat.le_refl _)
    omega

theorem StandsAt.eq_of_endOfData (h : StandsAt codec file chunks r p) (hend : r.endOfData = true) :
    p = (Bytes.concat chunks).size := by
  obtain ⟨k, hcaches, rfl⟩ := h
  simp only [endOfData, Bool.and_eq_true] at hend
  obtain ⟨rfl, hsize⟩ := hcaches.exhausted hend.1
  have hcursor := hcaches.cursor_le
  have hstart := Bytes.startOf_length chunks
  omega

theorem StandsAt.readBytes (hd : codec.Decodes file magic.size chunks)
    (h : StandsAt codec file chunks r p) (n : Nat) : ∃ read,
      r.readBytes n =
        (.ok (((Bytes.concat chunks).extract p (Bytes.concat chunks).size).extract 0 n), read) ∧
      ((Bytes.concat chunks).size < p + n → read.endOfData = true) := by
  obtain ⟨read, hread, -, hmeets⟩ :=
    ((feeds_standsAt hd).perform ⟨p, h.le_size, h, rfl⟩ (.bytes n)).1 (.inr rfl)
  refine ⟨read, hread, fun hpast => hmeets ?_⟩
  have hle := h.le_size
  have hsize : (ReadCall.bytes n).size = n := rfl
  simp only [ByteArray.size_extract, hsize]
  omega

theorem skip_of_endOfData (hend : r.endOfData = true) (n : Nat) : r.skip n = (.ok false, r) := by
  rw [Reader.skip, if_pos hend]

theorem StandsAt.endOfData_skip (hd : codec.Decodes file magic.size chunks)
    (h : StandsAt codec file chunks r p) {n : Nat}
    (hpast : (Bytes.concat chunks).size < p + n) : (r.skip n).2.endOfData = true := by
  obtain ⟨skipped, read, b, hskip, hread, halike⟩ := h.skip_readBytes hd n
  obtain ⟨read', hread', hmeets⟩ := h.readBytes hd n
  rw [hread] at hread'
  cases hread'
  rw [hskip]
  exact (congrArg View.atEnd halike.view_eq).trans (hmeets hpast)

end Reader

open Reader (Following)

/-- Of a file whose entries decode: a skip answers whether the reader is not yet at the offset of
the end, which it comes to when a call asks for more bytes than are left. The answer is right as
long as there are bytes left; behind the last byte it is wrong until some call has met the end, and
then it is right for good. -/
theorem skip_answers_whether_end_was_met {σ : Type} [LawfulSource σ] {codec : Codec}
    {file : ByteArray} {chunks : List ByteArray} (hmagic : file.extract 0 magic.size = magic)
    (hd : codec.Decodes file magic.size chunks) :
    let data := Bytes.concat chunks
    let finish : Offset := ⟨Entry.after file magic.size chunks.length, 0⟩
    ∀ (r : Reader σ) p,
      Following codec file data.size (fun o q => o.Names file chunks q) r p →
      (r.currentOffset = finish → p = data.size) ∧
      ∀ n > 0, ∃ b skipped read,
        r.skip n = (.ok (decide (r.currentOffset ≠ finish)), skipped) ∧
        r.readBytes n = (.ok b, read) ∧ (0 < b.size ↔ p < data.size) ∧
        (data.size < p + n → skipped.currentOffset = finish ∧ read.currentOffset = finish ∧
          ∀ m, skipped.skip m = (.ok false, skipped) ∧ read.skip m = (.ok false, read)) := by
  intro data finish r p hr
  have hstands := (hr.onCourse hd hmagic rfl fun o q ho => ho).standsAt
  have hend : r.endOfData = true ↔ r.currentOffset = finish := hstands.endOfData_iff hd
  refine ⟨fun hoffset => hstands.eq_of_endOfData (hend.mpr hoffset), fun n hn => ?_⟩
  obtain ⟨skipped, _, _, hskip, -⟩ := hstands.skip_readBytes hd n
  obtain ⟨read, hread, hmeets⟩ := hstands.readBytes hd n
  refine ⟨_, skipped, read, ?_, hread, ?_, fun hpast => ?_⟩
  · have hanswer : (!r.endOfData) = decide (r.currentOffset ≠ finish) := by
      rw [Bool.eq_iff_iff, Bool.not_eq_true', Bool.eq_false_iff, decide_eq_true_iff]
      exact not_congr hend
    rw [hskip, hanswer]
  · have hle : p ≤ data.size := hstands.le_size
    change 0 < ((data.extract p data.size).extract 0 n).size ↔ p < data.size
    simp only [ByteArray.size_extract]
    omega
  · have hskipped := hstands.skip hd n
    have hskip_end := hstands.endOfData_skip hd hpast
    have hafter := hstands.read hd (.bytes n)
    have hperform : (Reader.ReadCall.bytes n).perform r = r.readBytes n := rfl
    rw [hskip] at hskipped hskip_end
    rw [hperform, hread] at hafter
    exact ⟨hskipped.currentOffset_of_endOfData hskip_end,
      hafter.currentOffset_of_endOfData (hmeets hpast), fun m =>
      ⟨Reader.skip_of_endOfData hskip_end m, Reader.skip_of_endOfData (hmeets hpast) m⟩⟩

def oneChunk : ByteArray := ⟨#[97, 116, 7, 0, 0, 0, 2, 0, 0, 0, 32, 104, 105]⟩

def oneChunkReader (cursor : Nat) : Reader MemorySource where
  inner := ⟨oneChunk, 13, 2, false, .none⟩
  codec := .lz4 .checked
  cache := ⟨#[104, 105]⟩
  cursor
  bufferSize := 7
  chunk := 2
  position := 13
  fileLength := 13
  exhausted := false
  decompressions := 1
  log := #[]

theorem decodes_oneChunk : (Codec.lz4 .checked).Decodes oneChunk magic.size [⟨#[104, 105]⟩] :=
  .entry (e := ⟨2, _⟩) rfl Lz4.encodes_hi (.ends trivial)

theorem start_oneChunk :
    Reader.start (MemorySource.new oneChunk .none) (.lz4 .checked) = .ok (oneChunkReader 0) := by
  have hfetched : Source.fetch (⟨oneChunk, 2, 2, false, .none⟩ : MemorySource)
      ((Codec.lz4 .checked).maxCompressedSize maxChunkSize) =
        (.block 7 ⟨#[2, 0, 0, 0, 32, 104, 105]⟩, (oneChunkReader 0).inner) :=
    Source.fetch_of_readFor (k := 2) rfl rfl (by decide) (by decide) rfl
  exact Reader.start_of_block rfl rfl (Source.readExact?_of_readFor (k := 2) rfl) hfetched
    Lz4.encodes_hi (by decide)

theorem skip_answers_whether_end_was_met_behind_two_bytes : ∃ skipped,
    (oneChunkReader 0).skip 3 = (.ok true, skipped) ∧
      ∀ m, skipped.skip m = (.ok false, skipped) := by
  have hsound : (MemorySource.new oneChunk .none).Sound := MemorySource.sound_new (by decide)
  have hr : Following (.lz4 .checked) oneChunk 2
      (fun o q => o.Names oneChunk [⟨#[104, 105]⟩] q) (oneChunkReader 0) 0 :=
    .start hsound.faultFree hsound.seekable rfl start_oneChunk
  obtain ⟨-, hanswers⟩ := skip_answers_whether_end_was_met rfl decodes_oneChunk _ 0 hr
  obtain ⟨_, skipped, _, hskip, _, _, hmet⟩ := hanswers 3 (by decide)
  exact ⟨skipped, hskip, fun m => ((hmet (by decide)).2.2 m).1⟩

/-- Behind the last byte a skip answers that there was something left, and so the next one, which
starts at the same byte, answers otherwise. -/
theorem skip_answers_true_behind_last_byte : ∃ skipped,
    (oneChunkReader 0).readBytes 2 = (.ok ⟨#[104, 105]⟩, oneChunkReader 2) ∧
      ((oneChunkReader 2).readBytes 1).1 = .ok .empty ∧
      (oneChunkReader 2).skip 1 = (.ok true, skipped) ∧
      skipped.skip 1 = (.ok false, skipped) := by
  have hsound : (MemorySource.new oneChunk .none).Sound := MemorySource.sound_new (by decide)
  have hread : (oneChunkReader 0).readBytes 2 = (.ok ⟨#[104, 105]⟩, oneChunkReader 2) :=
    Reader.readBytes_cached (by decide)
  have hstart := Reader.start_standsAt decodes_oneChunk rfl
    ⟨hsound.faultFree, rfl, rfl⟩ start_oneChunk
  have hstands : Reader.StandsAt (.lz4 .checked) oneChunk [⟨#[104, 105]⟩] (oneChunkReader 2) 2 := by
    have hafter := hstart.read decodes_oneChunk (.bytes 2)
    have hperform : (Reader.ReadCall.bytes 2).perform (oneChunkReader 0) =
      (oneChunkReader 0).readBytes 2 := rfl
    rw [hperform, hread] at hafter
    exact hafter
  obtain ⟨skipped, _, _, hskip, -⟩ := hstands.skip_readBytes decodes_oneChunk 1
  obtain ⟨_, hnone, -⟩ := hstands.readBytes decodes_oneChunk 1
  have hend := hstands.endOfData_skip decodes_oneChunk (n := 1) (by decide)
  rw [hskip] at hend
  exact ⟨skipped, hread, congrArg Prod.fst hnone, hskip, Reader.skip_of_endOfData hend 1⟩

end TraceCapture
