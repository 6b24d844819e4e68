import TraceCapture.Crash.LogLine
import TraceCapture.Proofs.Crash.Reentrancy
import TraceCapture.Proofs.Stream.Stepwise
import TraceCapture.Proofs.Stream.WriteRounds
import TraceCapture.Stream.Memory
import TraceCapture.Word

set_option autoImplicit false

namespace TraceCapture

inductive CopyFault where
  | number (v : Violation)
  | outOfRange (start stop size : Nat)
  | sizesDiffer (source target : Nat)

/-- The cells in which a message is put together, of which the first ones are filled. -/
structure LineBuffer where
  cells : ByteArray
  length : Nat

inductive FragmentReport where
  | written
  | refused

namespace LineBuffer

def new : LineBuffer := ⟨Bytes.zeros LogLine.capacity, 0⟩

def piece (b : ByteArray) (start stop : Nat) : Except CopyFault ByteArray :=
  if start ≤ stop ∧ stop ≤ b.size then .ok (b.extract start stop)
  else .error (.outOfRange start stop b.size)

def copyTo (b : ByteArray) (start stop : Nat) (data : ByteArray) : Except CopyFault ByteArray :=
  if start ≤ stop ∧ stop ≤ b.size then
    if data.size = stop - start then .ok (Bytes.overwrite b start data)
    else .error (.sizesDiffer data.size (stop - start))
  else .error (.outOfRange start stop b.size)

/-- Copies as much of a fragment as fits behind the filled cells. The rest is dropped, and the
fragment is written nevertheless. -/
def write (p : Profile) (l : LineBuffer) (fragment : ByteArray) :
    Except CopyFault (FragmentReport × LineBuffer) := do
  let room ← (Word.sub p LogLine.capacity l.length).mapError .number
  let n := min fragment.size room
  let stop ← (Word.add p l.length n).mapError .number
  let source ← piece fragment 0 n
  let cells ← copyTo l.cells l.length stop source
  return (.written, ⟨cells, stop⟩)

def format (p : Profile) (l : LineBuffer) :
    List ByteArray → Except CopyFault (FragmentReport × LineBuffer)
  | [] => return (.written, l)
  | fragment :: fragments => do
    let (report, l) ← l.write p fragment
    match report with
    | .written => format p l fragments
    | .refused => return (.refused, l)

def message (l : LineBuffer) : Except CopyFault ByteArray := piece l.cells 0 l.length

structure Holds (l : LineBuffer) (line : LogLine) : Prop where
  size_cells : l.cells.size = LogLine.capacity
  length_eq : l.length = line.bytes.size
  filled_eq : l.cells.extract 0 l.length = line.bytes

variable {l : LineBuffer} {line : LogLine} {p : Profile}

theorem holds_new : new.Holds .empty :=
  ⟨Bytes.size_zeros _, rfl, ByteArray.extract_same⟩

theorem Holds.length_le (h : l.Holds line) : l.length ≤ LogLine.capacity :=
  h.length_eq ▸ line.size_le

theorem Holds.message_eq (h : l.Holds line) : l.message = .ok line.bytes := by
  have hstop : 0 ≤ l.length ∧ l.length ≤ l.cells.size := ⟨Nat.zero_le _, h.size_cells ▸ h.length_le⟩
  rw [message, piece, if_pos hstop, h.filled_eq]

theorem copyTo_of_fits {b data : ByteArray} {start : Nat} (h : start + data.size ≤ b.size) :
    copyTo b start (start + data.size) data = .ok (Bytes.overwrite b start data) := by
  rw [copyTo, if_pos ⟨Nat.le_add_right _ _, h⟩, if_pos (Nat.add_sub_cancel_left _ _).symm]

def fitting (l : LineBuffer) (fragment : ByteArray) : Nat :=
  min fragment.size (LogLine.capacity - l.length)

theorem size_extract_fitting (l : LineBuffer) (fragment : ByteArray) :
    (fragment.extract 0 (l.fitting fragment)).size = l.fitting fragment := by
  rw [ByteArray.size_extract, fitting]
  omega

theorem Holds.write_eq (h : l.Holds line) (p : Profile) (fragment : ByteArray) :
    l.write p fragment = .ok (.written,
      ⟨Bytes.overwrite l.cells l.length (fragment.extract 0 (l.fitting fragment)),
        l.length + l.fitting fragment⟩) := by
  have hlength := h.length_le
  have hword : LogLine.capacity < Word.size := by decide
  have hfitting : l.fitting fragment = min fragment.size (LogLine.capacity - l.length) := rfl
  have hsize := l.size_extract_fitting fragment
  have hend : l.length + (fragment.extract 0 (l.fitting fragment)).size ≤ l.cells.size := by
    rw [hsize, h.size_cells]
    omega
  have hpiece : piece fragment 0 (l.fitting fragment) =
      .ok (fragment.extract 0 (l.fitting fragment)) :=
    if_pos ⟨Nat.zero_le _, by omega⟩
  have hcopy := copyTo_of_fits hend
  rw [hsize] at hcopy
  have hstop : l.length + l.fitting fragment < Word.size := by omega
  have hroom : (Word.sub p LogLine.capacity l.length).mapError CopyFault.number =
      .ok (LogLine.capacity - l.length) := by
    rw [Word.sub_of_le hlength hword]
    rfl
  have hnext : (Word.add p l.length (l.fitting fragment)).mapError CopyFault.number =
      .ok (l.length + l.fitting fragment) := by
    rw [Word.add_of_lt hstop]
    rfl
  simp only [LineBuffer.write, hroom, bind, Except.bind, ← hfitting, hnext, hpiece, hcopy, pure,
    Except.pure]

/-- The copy of a fragment is in range, and adds to the filled cells what is added to the line. -/
theorem Holds.write (h : l.Holds line) (p : Profile) (fragment : ByteArray) :
    ∃ l', l.write p fragment = .ok (.written, l') ∧ l'.Holds (line.append fragment) := by
  have hlength := h.length_le
  have hcells := h.size_cells
  have hsize := l.size_extract_fitting fragment
  have hfitting : l.fitting fragment = min fragment.size (LogLine.capacity - l.length) := rfl
  have hfront : (l.cells.extract 0 l.length ++ fragment.extract 0 (l.fitting fragment)).size =
      l.length + l.fitting fragment := by
    rw [ByteArray.size_append, hsize, h.filled_eq, h.length_eq]
  have hadded : fragment.extract 0 (l.fitting fragment) =
      fragment.extract 0 (LogLine.capacity - line.bytes.size) := by
    rw [← h.length_eq]
    exact Bytes.extract_stop_congr (by omega)
  have hline : l.cells.extract 0 l.length ++ fragment.extract 0 (l.fitting fragment) =
      (line.append fragment).bytes := by
    rw [h.filled_eq, hadded]
    rfl
  refine ⟨_, h.write_eq p fragment, ?_, ?_, ?_⟩
  · exact (Bytes.size_overwrite (by omega)).trans hcells
  · rw [← hline, hfront]
  · dsimp only
    rw [Bytes.overwrite_eq, ByteArray.extract_append_eq_left hfront.symm, hline]

theorem Holds.format (h : l.Holds line) (p : Profile) (fragments : List ByteArray) :
    ∃ l', l.format p fragments = .ok (.written, l') ∧
      l'.Holds (fragments.foldl LogLine.append line) := by
  induction fragments generalizing l line with
  | nil => exact ⟨l, rfl, h⟩
  | cons fragment fragments ih =>
    obtain ⟨l', hwrite, hholds⟩ := h.write p fragment
    obtain ⟨l'', hrest, hall⟩ := ih hholds
    refine ⟨l'', ?_, hall⟩
    rw [LineBuffer.format, hwrite]
    exact hrest

end LineBuffer

namespace LogLine

variable {line : LogLine}

theorem bytes_append (fragment : ByteArray) :
    (line.append fragment).bytes = (line.bytes ++ fragment).extract 0 capacity := by
  have hroom : line.bytes.size + (capacity - line.bytes.size) = capacity :=
    Nat.add_sub_cancel' line.size_le
  rw [← hroom, Bytes.extract_append_front]
  rfl

/-- What was cut off once stays off, and nothing is added behind the cut. -/
theorem bytes_foldl_append (fragments : List ByteArray) :
    (fragments.foldl append line).bytes =
      (line.bytes ++ Bytes.concat fragments).extract 0 capacity := by
  induction fragments generalizing line with
  | nil =>
    rw [List.foldl_nil, Bytes.concat, ByteArray.append_empty, Bytes.extract_of_size_le line.size_le]
  | cons fragment fragments ih =>
    rw [List.foldl_cons, ih, bytes_append, Bytes.extract_front_append, ByteArray.append_assoc,
      Bytes.concat]

end LogLine

def LogPiece.fragment : LogPiece → ByteArray
  | .text s | .raising _ s => s.toUTF8

namespace CrashMachine

variable {m₀ m m' : CrashMachine} {rest : List Instruction}

/-- Whatever signals arrive meanwhile, the line that is being formatted is logged in the end. -/
theorem RunsAbove.logs_line {line : LogLine} {pieces : List LogPiece} (hto : RunsAbove rest m₀ m)
    (hrun : RunsAbove rest m m') (hm' : m'.code = rest)
    (hm : m.code = .format line pieces :: rest) :
    ∃ m₁ m₂, RunsAbove rest m₀ m₁ ∧ m₁.step = some m₂ ∧
      m₂.trace = m₁.trace.push (.logged
        ((pieces.map LogPiece.fragment).foldl LogLine.append line).bytes) ∧
      RunsAbove rest m₂ m' := by
  induction pieces generalizing m line with
  | nil =>
    obtain ⟨m₁, m₂, hto₁, hcode, hlive, hnone, rfl, -, hrun₂⟩ :=
      hto.comes_to hrun hm' [] [] _ hm
    exact ⟨m₁, _, hto₁, step_eq_execute hlive hnone hcode, rfl, hrun₂⟩
  | cons piece pieces ih =>
    obtain ⟨m₁, m₂, -, -, -, -, hm₂, hto₂, hrun₂⟩ := hto.comes_to hrun hm' [] [] _ hm
    cases piece with
    | text s =>
      exact ih hto₂ hrun₂ (by rw [hm₂]; rfl)
    | raising sig s =>
      -- the signal is raised and has come and gone when the piece is added
      obtain ⟨m₃, m₄, -, -, -, -, hm₄, hto₄, hrun₄⟩ :=
        hto₂.comes_to hrun₂ hm' [.raise sig] [] (.format line (.text s :: pieces))
          (by rw [hm₂]; rfl)
      exact ih hto₄ hrun₄ (by rw [hm₄]; rfl)

/-- A log call that comes to its end has logged as much of the front of its message as fits into a
line, whatever signals arrived meanwhile. -/
theorem Returns.logs_front {pieces : List LogPiece} (hreturns : Returns rest m m')
    (hm : m.code = .log pieces :: rest) :
    ∃ m₁ m₂, RunsAbove rest m m₁ ∧ m₁.step = some m₂ ∧
      m₂.trace = m₁.trace.push (.logged
        ((Bytes.concat (pieces.map LogPiece.fragment)).extract 0 LogLine.capacity)) ∧
      RunsAbove rest m₂ m' := by
  obtain ⟨hrun, hm'⟩ := hreturns
  obtain ⟨m₁, m₂, -, -, -, -, hm₂, hto₂, hrun₂⟩ :=
    RunsAbove.comes_to .refl hrun hm' [] [] _ hm
  have hcode : m₂.code = .format .empty pieces :: rest := by
    rw [hm₂]
    rfl
  have hlogs := hto₂.logs_line hrun₂ hm' hcode
  rwa [LogLine.bytes_foldl_append, LogLine.empty, ByteArray.empty_append] at hlogs

end CrashMachine

/-- Whatever the fragments of a message are, they are copied into the line without a fault, and the
line is the front of the message that it has room for. Whatever is done with its writes, a front of
the line is taken after each round, and what is left of it is handed over next unless the write
ended because nothing was left, nothing was taken or it failed. A write to a sink does end. -/
theorem log_line_is_front_of_message (p : Profile) (fragments : List ByteArray) :
    let message := Bytes.concat fragments
    let front := message.extract 0 (min LogLine.capacity message.size)
    let line := fragments.foldl LogLine.append .empty
    (∃ l, LineBuffer.new.format p fragments = .ok (.written, l) ∧ l.message = .ok front) ∧
    line.bytes = front ∧ front.size = min LogLine.capacity message.size ∧
    (∀ {σ : Type} (outlet : Outlet σ) (s t : σ) (i : Nat), outlet.Rounds front s t i →
      i ≤ front.size ∧ outlet.contents t = outlet.contents s ++ front.extract 0 i ∧
      outlet.Effect front t i (outlet.round front t i)) ∧
    ∀ {σ : Type} [LawfulSink σ] (s : σ), ∃ t i,
      (LawfulSink.outlet σ).Rounds front s t i ∧
      (LawfulSink.outlet σ).round front t i =
        .ended (Sink.writeAll s line.bytes).1 (line.writeTo s) ∧
      LawfulSink.contents (line.writeTo s) = LawfulSink.contents s ++ front.extract 0 i ∧
      ((Sink.writeAll s line.bytes).1 = .ok () ↔ i = front.size) := by
  intro message front line
  have hline : line.bytes = front := by
    rw [LogLine.bytes_foldl_append, LogLine.empty, ByteArray.empty_append]
    change message.extract 0 LogLine.capacity = _
    exact Bytes.extract_stop_congr (by omega)
  refine ⟨?_, hline, ?_, fun outlet s t i h => ?_, fun {σ} _ s => ?_⟩
  · obtain ⟨l, hformat, hholds⟩ := LineBuffer.holds_new.format p fragments
    exact ⟨l, hformat, hline ▸ hholds.message_eq⟩
  · rw [ByteArray.size_extract]
    omega
  · obtain ⟨hi, hcontents⟩ := h.contents_eq
    exact ⟨hi, hcontents, Outlet.effect_round hi⟩
  · obtain ⟨t, i, hrounds, hlast⟩ :=
      Outlet.Rounds.writeFrom (.start : (LawfulSink.outlet σ).Rounds front s s 0)
    rw [LogLine.writeTo, hline]
    exact ⟨t, i, hrounds, hlast, hrounds.of_ended hlast⟩

def Outlet.stubborn : Outlet ByteArray where
  write s _ := (.interrupted, s)
  contents s := s
  contents_accepted := by rintro s b n ⟨⟩
  contents_refused := fun _ _ _ => rfl

theorem writeAll_in_pairs :
    Sink.writeAll (MemorySink.new ⟨true, some 2, none, none, none, none⟩) ⟨#[1, 2, 3]⟩ =
      (.ok (), ⟨⟨#[1, 2, 3]⟩, 0, false, ⟨true, some 2, none, none, none, none⟩⟩) :=
  Sink.writeAll_of_writeFor (k := 5) rfl

/-- A message is cut inside its second fragment. A short one goes to a sink that interrupts every
other write and takes two bytes at a time, and nothing of it to an outlet that interrupts each. -/
theorem log_line_is_front_of_message_behind_interruptions :
    let full : ByteArray := ⟨Array.replicate 511 7⟩
    let short : List ByteArray := [⟨#[1, 2]⟩, .empty, ⟨#[3]⟩]
    let sink := MemorySink.new ⟨true, some 2, none, none, none, none⟩
    (∃ l, LineBuffer.new.format .checked [full, ⟨#[1, 2]⟩, ⟨#[3]⟩] = .ok (.written, l) ∧
      l.message = .ok (full.push 1)) ∧
    LawfulSink.contents ((short.foldl LogLine.append .empty).writeTo sink) = ⟨#[1, 2, 3]⟩ ∧
    Outlet.stubborn.Rounds ⟨#[1, 2, 3]⟩ .empty .empty 0 ∧
    Outlet.stubborn.Effect ⟨#[1, 2, 3]⟩ .empty 0 (.goesOn .empty 0) := by
  intro full short sink
  have hfull : full.size = 511 := Array.size_replicate
  have hcut : (Bytes.concat [full, ⟨#[1, 2]⟩, ⟨#[3]⟩]).extract 0 (full.size + 1) = full.push 1 := by
    rw [Bytes.concat, Bytes.extract_append_front]
    exact (Bytes.append_push full .empty 1).trans (by rw [ByteArray.append_empty])
  have hlarge : 512 ≤ (Bytes.concat [full, ⟨#[1, 2]⟩, ⟨#[3]⟩]).size := by
    rw [Bytes.concat, ByteArray.size_append, hfull]
    decide
  obtain ⟨⟨l, hformat, hmessage⟩, -⟩ :=
    log_line_is_front_of_message .checked [full, ⟨#[1, 2]⟩, ⟨#[3]⟩]
  obtain ⟨-, hline, -, hrounds, hsink⟩ := log_line_is_front_of_message .checked short
  refine ⟨⟨l, hformat, ?_⟩, ?_, .next .start rfl, ?_⟩
  · rw [hmessage, LogLine.capacity, Nat.min_eq_left hlarge, ← hcut, hfull]
  · obtain ⟨t, i, -, -, hcontents, hall⟩ := hsink sink
    have hfront : (Bytes.concat short).extract 0
        (min LogLine.capacity (Bytes.concat short).size) = ⟨#[1, 2, 3]⟩ := rfl
    rw [hfront] at hline hcontents hall
    have hi := hall.mp (by rw [hline, writeAll_in_pairs])
    rw [hcontents, hi]
    rfl
  · exact (hrounds Outlet.stubborn .empty .empty 0 .start).2.2

end TraceCapture
