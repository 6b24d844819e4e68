import TraceCapture.Proofs.Configuration
import TraceCapture.Trace.File

set_option autoImplicit false

namespace TraceCapture

namespace Disk

variable {d : Disk} {place other there : DiskPlace} {path : DiskPath} {n : DiskNode}

@[simp] theorem node?_set_self : (d.set place n).node? place = some n :=
  List.lookup_cons_self

theorem node?_set_of_ne (h : other ≠ place) : (d.set place n).node? other = d.node? other := by
  obtain ⟨nodes⟩ := d
  have hhead : (other == place) = false := beq_eq_false_iff_ne.mpr h
  simp only [node?, set, List.lookup_cons, hhead]
  induction nodes with
  | nil => rfl
  | cons entry nodes ih =>
    obtain ⟨q, m⟩ := entry
    rw [List.filter_cons]
    split
    · rw [List.lookup_cons, List.lookup_cons, ih]
    · next hq =>
      have hne : (other == q) = false := by
        have hqp : q = place := by simpa using hq
        rw [hqp]
        exact hhead
      rw [List.lookup_cons, hne]
      exact ih

theorem walk_set {here last : DiskPlace} {names : List String}
    (hthere : d.node? there ≠ some .directory) (h : d.walk here names = .ok last) :
    (d.set there n).walk here names = .ok last := by
  induction names generalizing here with
  | nil => exact h
  | cons name names ih =>
    rw [walk] at h ⊢
    cases hnext : here.follow name with
    | error e =>
      rw [hnext] at h
      cases h
    | ok next =>
      rw [hnext] at h
      dsimp only at h ⊢
      split at h
      · next hdir =>
        have hne : next ≠ there := fun heq => hthere (heq ▸ hdir)
        rw [node?_set_of_ne hne, hdir]
        exact ih h
      · cases h
      · cases h

theorem placeOfFile_eq_ok (h : d.placeOfFile path = .ok there) : ∃ here,
    d.directoryOf path = .ok here ∧ path.directoryOnly = false ∧
      here.follow path.last = .ok there ∧ d.node? there ≠ some .directory := by
  unfold placeOfFile at h
  split at h
  · cases h
  · next here hhere =>
    split at h
    · cases h
    · next hfile =>
      split at h
      · cases h
      · next place hplace =>
        split at h
        · cases h
        · next hnode =>
          cases h
          exact ⟨here, hhere, by simpa using hfile, hplace, hnode⟩

theorem contents_set (h : d.placeOfFile path = .ok there) (data : ByteArray) :
    (d.set there (.file data)).contents path = .ok data := by
  obtain ⟨here, hhere, hfile, hlast, hnode⟩ := placeOfFile_eq_ok h
  have hdirectory : (d.set there (.file data)).directoryOf path = .ok here := by
    unfold directoryOf at hhere ⊢
    split at hhere
    · cases hhere
    · exact walk_set hnode hhere
  rw [contents, find, Disk.place, hdirectory]
  dsimp only
  rw [hlast]
  dsimp only
  rw [node?_set_self]
  dsimp only
  rw [hfile]
  rfl

end Disk

variable {p : Profile} {d d' : Disk} {path : DiskPath}

/-- A session is refused for its configuration exactly if that is out of range, whatever is on the
disk, and the disk stays as it is. -/
theorem CaptureSession.create_eq_config_error_iff {config : CaptureConfig} {e : ConfigError} :
    create p d path config = (.error (.config e), d') ↔ config.OutOfRange e ∧ d' = d := by
  constructor
  · intro h
    obtain hin | ⟨e', hout⟩ := config.inRange_or_outOfRange
    · rw [create, CaptureConfig.validate_of_inRange hin] at h
      dsimp only at h
      split at h
      · cases h
      · split at h
        · next writer _ _ =>
          -- the session has a ring in range, so it can only start or panic
          have hanswer := start_answer writer hin.ring_ge
          generalize start writer config.ringCapacity = started at h hanswer
          obtain ⟨⟨session⟩ | ⟨cause⟩ | ⟨v⟩, sink⟩ := started
          · cases h
          · split at hanswer <;> cases hanswer
          · cases h
        · cases h
        · cases h
    · rw [create, CaptureConfig.validate_of_outOfRange hout] at h
      cases h
      exact ⟨hout, rfl⟩
  · rintro ⟨hout, rfl⟩
    rw [create, CaptureConfig.validate_of_outOfRange hout]

namespace TraceFile

theorem openPath_of_placeOfFile_error {e : IoError} (h : d.placeOfFile path = .error e)
    (chunkSize : Nat) : openPath p d path .write chunkSize = (.error (.io e), d) := by
  rw [openPath, openForWriting, DiskFile.forWriting, h]
  rfl

theorem openPath_of_chunkSize {chunkSize : Nat} {there : DiskPlace}
    (hplace : d.placeOfFile path = .ok there) (h : chunkSize = 0 ∨ maxChunkSize < chunkSize) :
    openPath p d path .write chunkSize =
      (.error (.invalidChunkSize chunkSize), d.set there (.file .empty)) := by
  rw [openPath, openForWriting, DiskFile.forWriting, hplace]
  dsimp only [Except.map]
  rw [Writer.start, ChunkSize.ofNat?_of_not_le h]
  rfl

/-- A trace file is refused for its chunk size exactly if that is out of range and the path can have
a file, and then it has an empty one. -/
theorem openPath_eq_chunkSize_error_iff {chunkSize size : Nat} :
    openPath p d path .write chunkSize = (.error (.invalidChunkSize size), d') ↔
      size = chunkSize ∧ (chunkSize = 0 ∨ maxChunkSize < chunkSize) ∧
        ∃ there, d.placeOfFile path = .ok there ∧ d' = d.set there (.file .empty) := by
  constructor
  · intro h
    cases hplace : d.placeOfFile path with
    | error e =>
      rw [openPath_of_placeOfFile_error hplace] at h
      cases h
    | ok there =>
      by_cases hsize : chunkSize = 0 ∨ maxChunkSize < chunkSize
      · rw [openPath_of_chunkSize hplace hsize] at h
        cases h
        exact ⟨rfl, hsize, there, rfl, rfl⟩
      · -- with a chunk size in range the start can only fail as the file does
        rw [openPath, openForWriting, DiskFile.forWriting, hplace] at h
        dsimp only [Except.map] at h
        have hanswer := Writer.start_lz4 (⟨d.set there (.file .empty), there, 0⟩ : DiskFile)
          (n := chunkSize) (by omega) (by omega) p
        generalize Writer.start (⟨d.set there (.file .empty), there, 0⟩ : DiskFile) chunkSize
          (.lz4 p) = started at h hanswer
        generalize (Sink.writeAll (⟨d.set there (.file .empty), there, 0⟩ : DiskFile) magic).1 =
          written at hanswer
        obtain ⟨⟨w⟩ | ⟨cause⟩ | ⟨v⟩, file⟩ := started
        · cases h
        · cases h
          cases written <;> cases hanswer
        · cases h
  · rintro ⟨rfl, hsize, there, hplace, rfl⟩
    exact openPath_of_chunkSize hplace hsize

end TraceFile

/-- Whatever is on the disk: a session that is refused for its configuration leaves the disk as it
is. A trace file that is refused for its chunk size leaves an empty file, in place of the one that
was there or of none, and nothing else is changed. -/
theorem rejected_open_leaves_empty_file (p : Profile) (d : Disk) (path : DiskPath) :
    (∀ config e d', CaptureSession.create p d path config = (.error (.config e), d') ↔
      config.OutOfRange e ∧ d' = d) ∧
    (∀ chunkSize size d',
      TraceFile.openPath p d path .write chunkSize = (.error (.invalidChunkSize size), d') ↔
        size = chunkSize ∧ (chunkSize = 0 ∨ 64 * 1024 * 1024 < chunkSize) ∧
          ∃ there, d.placeOfFile path = .ok there ∧ d' = d.set there (.file .empty)) ∧
    ∀ there, d.placeOfFile path = .ok there →
      (d.set there (.file .empty)).contents path = .ok .empty ∧
        ∀ other, other ≠ there → (d.set there (.file .empty)).node? other = d.node? other := by
  refine ⟨fun config e d' => CaptureSession.create_eq_config_error_iff,
    fun chunkSize size d' => TraceFile.openPath_eq_chunkSize_error_iff, fun there hplace => ?_⟩
  exact ⟨Disk.contents_set hplace .empty, fun other hne => Disk.node?_set_of_ne hne⟩

def DiskPath.letter : DiskPath := ⟨false, ["a"], false, 1⟩

theorem DiskPath.fault_letter : letter.fault = none := by
  have hname : "a".contains '\x00' = false := by simp [String.contains]
  rw [fault, letter]
  simp only [List.any_cons, List.any_nil, hname]
  decide

theorem rejected_open_leaves_empty_file_in_place_of_none :
    Disk.empty.contents .letter = .error .notFound ∧
      (∃ d', TraceFile.openPath .checked .empty .letter .write 0 =
        (.error (.invalidChunkSize 0), d') ∧ d'.contents .letter = .ok .empty) ∧
      CaptureSession.create .checked .empty .letter ⟨1, 0⟩ =
        (.error (.config (.ringCapacity 1)), .empty) := by
  have hplace : Disk.empty.placeOfFile .letter = .ok ["tmp", "work", "a"] := by
    rw [Disk.placeOfFile, Disk.directoryOf, DiskPath.fault_letter]
    rfl
  obtain ⟨hsession, hfile, hleft⟩ := rejected_open_leaves_empty_file .checked .empty .letter
  refine ⟨?_, ⟨_, (hfile 0 0 _).mpr ?_, (hleft _ hplace).1⟩, ?_⟩
  · rw [Disk.contents, Disk.find, Disk.place, Disk.directoryOf, DiskPath.fault_letter]
    rfl
  · exact ⟨rfl, .inl rfl, _, hplace, rfl⟩
  · exact (hsession ⟨1, 0⟩ _ _).mpr ⟨.ring (by decide), rfl⟩

/-- Of two opens of one file with a chunk size of zero, both refused, the session's leaves its bytes
and the trace file's takes them away. -/
theorem rejected_open_takes_the_bytes :
    ∃ d d' : Disk, d.contents .letter = .ok ⟨#[1, 2, 3]⟩ ∧
      TraceFile.openPath .checked d .letter .write 0 = (.error (.invalidChunkSize 0), d') ∧
      d'.contents .letter = .ok .empty ∧
      CaptureSession.create .checked d .letter ⟨2, 0⟩ =
        (.error (.config (.file (.invalidChunkSize 0))), d) := by
  let d := Disk.empty.set ["tmp", "work", "a"] (.file ⟨#[1, 2, 3]⟩)
  have hplace : d.placeOfFile .letter = .ok ["tmp", "work", "a"] := by
    rw [Disk.placeOfFile, Disk.directoryOf, DiskPath.fault_letter]
    rfl
  refine ⟨d, _, ?_, TraceFile.openPath_of_chunkSize hplace (.inl rfl),
    Disk.contents_set hplace .empty, rfl⟩
  rw [Disk.contents, Disk.find, Disk.place, Disk.directoryOf, DiskPath.fault_letter]
  rfl

end TraceCapture
