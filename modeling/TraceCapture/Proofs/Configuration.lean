import TraceCapture.Config
import TraceCapture.Proofs.Block.Lz4.Lawful
import TraceCapture.Proofs.Capture.RingSafety
import TraceCapture.Proofs.Stream.Memory
import TraceCapture.Proofs.Text.Numeral

set_option autoImplicit false

namespace TraceCapture

namespace CaptureConfig

variable {lookup : String → Option String} {name : String} {default ring chunk n : Nat}

structure InRange (c : CaptureConfig) : Prop where
  ring_ge : minRingCapacity ≤ c.ringCapacity
  chunk_pos : 0 < c.chunkSize
  chunk_le : c.chunkSize ≤ maxChunkSize

/-- What is wrong with the sizes; of two wrong sizes the ring is reported. -/
inductive OutOfRange (c : CaptureConfig) : ConfigError → Prop
  | ring : c.ringCapacity < minRingCapacity → OutOfRange c (.ringCapacity c.ringCapacity)
  | chunk : minRingCapacity ≤ c.ringCapacity → c.chunkSize = 0 ∨ maxChunkSize < c.chunkSize →
      OutOfRange c (.file (.invalidChunkSize c.chunkSize))

theorem validate_of_inRange {c : CaptureConfig} (h : c.InRange) :
    c.validate = .ok ⟨c.chunkSize, h.chunk_pos, h.chunk_le⟩ := by
  rw [validate, if_neg (Nat.not_lt.mpr h.ring_ge), ChunkSize.ofNat?_of_le h.chunk_pos h.chunk_le]
  rfl

theorem validate_of_outOfRange {c : CaptureConfig} {e : ConfigError} (h : c.OutOfRange e) :
    c.validate = .error e := by
  cases h with
  | ring h => rw [validate, if_pos h]
  | chunk hring hchunk =>
    rw [validate, if_neg (Nat.not_lt.mpr hring), ChunkSize.ofNat?_of_not_le hchunk]
    rfl

theorem inRange_or_outOfRange (c : CaptureConfig) : c.InRange ∨ ∃ e, c.OutOfRange e := by
  by_cases hring : c.ringCapacity < minRingCapacity
  · exact .inr ⟨_, .ring hring⟩
  · by_cases hchunk : c.chunkSize = 0 ∨ maxChunkSize < c.chunkSize
    · exact .inr ⟨_, .chunk (Nat.le_of_not_lt hring) hchunk⟩
    · exact .inl ⟨by omega, by omega, by omega⟩

/-- `n` is the size that a variable asks for. One that is not set asks for the default. -/
def Asks (lookup : String → Option String) (name : String) (default n : Nat) : Prop :=
  lookup name = none ∧ n = default ∨
    ∃ value, lookup name = some value ∧ Text.Denotes value n ∧ n < Word.size

def NoSize (lookup : String → Option String) (name value : String) : Prop :=
  lookup name = some value ∧ ∀ n, Text.Denotes value n → Word.size ≤ n

theorem parseSize_eq_ok_iff {value : String} :
    parseSize name value = .ok n ↔ Text.Denotes value n ∧ n < Word.size := by
  rw [← Text.size?_trim_eq_some_iff, parseSize]
  cases Text.size? (Text.trim value.toList) <;> simp

theorem sizeOf_of_asks (h : Asks lookup name default n) :
    sizeOf lookup name default = .ok n := by
  obtain ⟨hunset, rfl⟩ | ⟨value, hset, hvalue⟩ := h
  · rw [sizeOf, hunset]
  · rw [sizeOf, hset]
    exact parseSize_eq_ok_iff.mpr hvalue

theorem sizeOf_of_noSize {value : String} (h : NoSize lookup name value) :
    sizeOf lookup name default = .error (.invalidNumber name value) := by
  have hsize : Text.size? (Text.trim value.toList) = none :=
    Option.eq_none_iff_forall_ne_some.mpr fun n hn =>
      have hdenotes := Text.size?_trim_eq_some_iff.mp hn
      Nat.not_lt.mpr (h.2 n hdenotes.1) hdenotes.2
  rw [sizeOf, h.1]
  dsimp only
  rw [parseSize, hsize]

theorem asks_or_noSize (lookup : String → Option String) (name : String) (default : Nat) :
    (∃ n, Asks lookup name default n) ∨ ∃ value, NoSize lookup name value := by
  cases hvalue : lookup name with
  | none => exact .inl ⟨default, .inl ⟨hvalue, rfl⟩⟩
  | some value =>
    by_cases h : ∃ n, Text.Denotes value n ∧ n < Word.size
    · obtain ⟨n, hn⟩ := h
      exact .inl ⟨n, .inr ⟨value, hvalue, hn⟩⟩
    · refine .inr ⟨value, hvalue, fun n hn => Nat.le_of_not_lt fun hlt => h ⟨n, hn, hlt⟩⟩

/-- The fault that an error has to name: what comes first of a ring that is no number, a chunk that
is none, a ring that is too small and a chunk that is too small or too large. -/
inductive FirstFault (lookup : String → Option String) : ConfigError → Prop
  | ringNumber {value : String} : NoSize lookup ringCapacityVariable value →
      FirstFault lookup (.invalidNumber ringCapacityVariable value)
  | chunkNumber {ring : Nat} {value : String} :
      Asks lookup ringCapacityVariable defaultRingCapacity ring →
      NoSize lookup chunkSizeVariable value →
      FirstFault lookup (.invalidNumber chunkSizeVariable value)
  | size {ring chunk : Nat} {e : ConfigError} :
      Asks lookup ringCapacityVariable defaultRingCapacity ring →
      Asks lookup chunkSizeVariable defaultChunkSize chunk →
      OutOfRange ⟨ring, chunk⟩ e → FirstFault lookup e

theorem ofLookup_of_asks (hring : Asks lookup ringCapacityVariable defaultRingCapacity ring)
    (hchunk : Asks lookup chunkSizeVariable defaultChunkSize chunk) :
    ofLookup lookup = (validate ⟨ring, chunk⟩).map fun _ => ⟨ring, chunk⟩ := by
  rw [ofLookup, sizeOf_of_asks hring, sizeOf_of_asks hchunk]
  simp only [bind, Except.bind]
  cases validate ⟨ring, chunk⟩ <;> rfl

theorem ofLookup_of_inRange {c : CaptureConfig}
    (hring : Asks lookup ringCapacityVariable defaultRingCapacity c.ringCapacity)
    (hchunk : Asks lookup chunkSizeVariable defaultChunkSize c.chunkSize) (h : c.InRange) :
    ofLookup lookup = .ok c := by
  rw [ofLookup_of_asks hring hchunk, validate_of_inRange h]
  rfl

theorem ofLookup_of_firstFault {e : ConfigError} (h : FirstFault lookup e) :
    ofLookup lookup = .error e := by
  cases h with
  | ringNumber h =>
    rw [ofLookup, sizeOf_of_noSize h]
    rfl
  | chunkNumber hring h =>
    rw [ofLookup, sizeOf_of_asks hring, sizeOf_of_noSize h]
    rfl
  | size hring hchunk h =>
    rw [ofLookup_of_asks hring hchunk, validate_of_outOfRange h]
    rfl

/-- Either the variables ask for two sizes in range, or there is a first fault. -/
theorem asks_or_firstFault (lookup : String → Option String) :
    (∃ c : CaptureConfig, Asks lookup ringCapacityVariable defaultRingCapacity c.ringCapacity ∧
      Asks lookup chunkSizeVariable defaultChunkSize c.chunkSize ∧ c.InRange) ∨
    ∃ e, FirstFault lookup e := by
  obtain ⟨ring, hring⟩ | ⟨value, h⟩ :=
    asks_or_noSize lookup ringCapacityVariable defaultRingCapacity
  · obtain ⟨chunk, hchunk⟩ | ⟨value, h⟩ := asks_or_noSize lookup chunkSizeVariable defaultChunkSize
    · obtain h | ⟨e, h⟩ := inRange_or_outOfRange ⟨ring, chunk⟩
      · exact .inl ⟨⟨ring, chunk⟩, hring, hchunk, h⟩
      · exact .inr ⟨e, .size hring hchunk h⟩
    · exact .inr ⟨_, .chunkNumber hring h⟩
  · exact .inr ⟨_, .ringNumber h⟩

theorem ofLookup_eq_ok_iff {c : CaptureConfig} : ofLookup lookup = .ok c ↔
    Asks lookup ringCapacityVariable defaultRingCapacity c.ringCapacity ∧
      Asks lookup chunkSizeVariable defaultChunkSize c.chunkSize ∧ c.InRange := by
  refine ⟨fun h => ?_, fun ⟨hring, hchunk, hrange⟩ => ofLookup_of_inRange hring hchunk hrange⟩
  obtain ⟨c', hring, hchunk, hrange⟩ | ⟨e, hfault⟩ := asks_or_firstFault lookup
  · rw [ofLookup_of_inRange hring hchunk hrange] at h
    cases h
    exact ⟨hring, hchunk, hrange⟩
  · rw [ofLookup_of_firstFault hfault] at h
    cases h

theorem ofLookup_eq_error_iff {e : ConfigError} :
    ofLookup lookup = .error e ↔ FirstFault lookup e := by
  refine ⟨fun h => ?_, ofLookup_of_firstFault⟩
  obtain ⟨c, hring, hchunk, hrange⟩ | ⟨e', hfault⟩ := asks_or_firstFault lookup
  · rw [ofLookup_of_inRange hring hchunk hrange] at h
    cases h
  · rw [ofLookup_of_firstFault hfault] at h
    cases h
    exact hfault

end CaptureConfig

section

variable {σ : Type} [Sink σ]

theorem Writer.start_lz4 (s : σ) {n : Nat} (hpos : 0 < n) (hmax : n ≤ maxChunkSize) (p : Profile) :
    (start s n (.lz4 p)).1.map (fun _ => ()) = (Sink.writeAll s magic).1.mapError .io := by
  rw [start_eq s _ hpos hmax ((Lz4.lawful_lz4 p).buffer_lt hmax)]
  cases (Sink.writeAll s magic).1 <;> rfl

theorem CaptureSession.start_answer (writer : Writer σ) {capacity : Nat}
    (hmin : minRingCapacity ≤ capacity) :
    (start writer capacity).1.map (fun _ => ()) =
      if capacity < Bytes.bufferLimit then .ok () else .panicked .capacityOverflow := by
  split
  · next hlt =>
    rw [start_eq writer hmin hlt]
    rfl
  · next hlt =>
    have hpos : capacity ≠ 0 := Nat.ne_of_gt (Nat.lt_of_lt_of_le Nat.two_pos hmin)
    rw [start, if_neg (Nat.not_lt.mpr hmin), Ring.new, if_neg hpos, Bytes.reserve, if_neg hlt]
    rfl

end

open CaptureConfig in
/-- Whatever the variables hold: a configuration is accepted exactly if each is not set or a number
that fits into a word, and both sizes are in range; it has these sizes. Otherwise the error is the
first fault. With a configuration that was accepted a trace writer starts as its sink takes the
magic, and a session starts unless its ring is larger than any buffer can be. -/
theorem configuration_is_decimal_in_range (lookup : String → Option String) :
    (∀ c, ofLookup lookup = .ok c ↔
      Asks lookup ringCapacityVariable (4 * 1024 * 1024) c.ringCapacity ∧
      Asks lookup chunkSizeVariable (1024 * 1024) c.chunkSize ∧
      2 ≤ c.ringCapacity ∧ 1 ≤ c.chunkSize ∧ c.chunkSize ≤ 64 * 1024 * 1024) ∧
    (∀ e, ofLookup lookup = .error e ↔ FirstFault lookup e) ∧
    ∀ c, ofLookup lookup = .ok c →
      (∀ {σ : Type} [Sink σ] (sink : σ) (p : Profile),
        (Writer.start sink c.chunkSize (.lz4 p)).1.map (fun _ => ()) =
          (Sink.writeAll sink magic).1.mapError .io) ∧
      ∀ {σ : Type} [Sink σ] (writer : Writer σ),
        (CaptureSession.start writer c.ringCapacity).1.map (fun _ => ()) =
          if c.ringCapacity < 2 ^ 63 then .ok () else .panicked .capacityOverflow := by
  have hrange : ∀ c : CaptureConfig,
      c.InRange ↔ 2 ≤ c.ringCapacity ∧ 1 ≤ c.chunkSize ∧ c.chunkSize ≤ 64 * 1024 * 1024 :=
    fun c => ⟨fun h => ⟨h.ring_ge, h.chunk_pos, h.chunk_le⟩, fun h => ⟨h.1, h.2.1, h.2.2⟩⟩
  refine ⟨fun c => ?_, fun e => ofLookup_eq_error_iff, fun c hc => ?_⟩
  · rw [← hrange c]
    exact ofLookup_eq_ok_iff
  · obtain ⟨-, -, hin⟩ := ofLookup_eq_ok_iff.mp hc
    exact ⟨fun sink p => Writer.start_lz4 sink hin.chunk_pos hin.chunk_le p,
      fun writer => CaptureSession.start_answer writer hin.ring_ge⟩

def CaptureConfig.setOnly (name value : String) : String → Option String :=
  fun asked => if asked = name then some value else none

open CaptureConfig in
theorem configuration_is_decimal_in_range_between_blanks :
    ofLookup (setOnly chunkSizeVariable " 004096\t") = .ok ⟨4194304, 4096⟩ ∧
      (∀ p, (Writer.start (MemorySink.new .none) 4096 (.lz4 p)).1.map (fun _ => ()) = .ok ()) ∧
      (∀ writer : Writer MemorySink,
        (CaptureSession.start writer 4194304).1.map (fun _ => ()) = .ok ()) ∧
      FirstFault (setOnly ringCapacityVariable "4M")
        (.invalidNumber ringCapacityVariable "4M") := by
  have hdenotes : Text.Denotes " 004096\t" 4096 :=
    ⟨[' '], "004096".toList, ['\t'], by decide,
      .inl ⟨by decide, List.all_eq_true.mp rfl, by decide⟩,
      List.all_eq_true.mp rfl, List.all_eq_true.mp rfl⟩
  obtain ⟨hok, -, hruns⟩ :=
    configuration_is_decimal_in_range (setOnly chunkSizeVariable " 004096\t")
  have haccepted := (hok ⟨4194304, 4096⟩).mpr
    ⟨.inl ⟨by decide, rfl⟩, .inr ⟨_, if_pos rfl, hdenotes, by decide⟩, by decide⟩
  obtain ⟨hwriter, hsession⟩ := hruns _ haccepted
  have hmagic := Sink.writeAll_ok (MemorySink.faultFree (s := MemorySink.new .none) rfl) magic
  refine ⟨haccepted, fun p => ?_, fun writer => hsession writer, ?_⟩
  · rw [hwriter, hmagic]
    rfl
  · exact ((configuration_is_decimal_in_range (setOnly ringCapacityVariable "4M")).2.1 _).mp
      (by decide)

open CaptureConfig in
/-- A plus sign is accepted, which is no digit, and so is a ring that no session can start with. -/
theorem sign_and_vast_ring_are_accepted :
    ofLookup (setOnly ringCapacityVariable "+4096") = .ok ⟨4096, 1048576⟩ ∧
      (¬ ∀ c ∈ Text.trim "+4096".toList, c.isDigit = true) ∧
      ofLookup (setOnly ringCapacityVariable "9223372036854775808") = .ok ⟨2 ^ 63, 1048576⟩ ∧
      ∀ writer : Writer MemorySink, CaptureSession.start writer (2 ^ 63) =
        (.panicked .capacityOverflow, writer.drop.2.inner) :=
  ⟨by decide, fun h => absurd (h '+' (by decide)) (by decide), by decide, fun _ => rfl⟩

end TraceCapture
