import TraceCapture.Crash.Registry
import TraceCapture.Proofs.Crash.Saved

set_option autoImplicit false

namespace TraceCapture

inductive ClaimStage where
  | free
  /-- The callback is not running: it is not called yet, or the backtrace is dumped. -/
  | claimed
  | calling
  deriving DecidableEq, Repr

def ClaimStage.isHeld : ClaimStage → Bool
  | free => false
  | claimed | calling => true

structure CrashMode where
  logging : Bool
  stage : ClaimStage
  deriving DecidableEq, Repr

namespace CrashMode

def quiet : CrashMode := ⟨false, .free⟩

def handling (mode : CrashMode) : Bool := mode.stage.isHeld

theorem eq_quiet {mode : CrashMode} (hlogging : mode.logging = false)
    (hhandling : mode.handling = false) : mode = quiet := by
  obtain ⟨logging, stage⟩ := mode
  cases hlogging
  cases stage with
  | free => rfl
  | claimed | calling => cases hhandling

end CrashMode

namespace Instruction

def before (i : Instruction) (behind : CrashMode) : Option CrashMode :=
  match i with
  | .format _ _ | .endLog => if behind.logging then none else some { behind with logging := true }
  | .log _ | .claim _ _ | .forward _ _ => if behind.logging then none else some behind
  | .runCallback | .dumpBacktrace => if behind = ⟨false, .claimed⟩ then some behind else none
  | .endCallback => if behind = ⟨false, .claimed⟩ then some ⟨false, .calling⟩ else none
  | .release => if behind = .quiet then some ⟨false, .claimed⟩ else none
  | .handle _ _ | .callPlain _ _ | .callDetailed _ _ _ | .endHandler | .restoreDefault _ | .raise _
  | .raiseUpTo _ _ | .restoreMask _ => some behind

def isLogRest : Instruction → Bool
  | .format _ _ | .endLog => true
  | _ => false

def isEndCallback : Instruction → Bool
  | .endCallback => true
  | _ => false

def isRelease : Instruction → Bool
  | .release => true
  | _ => false

end Instruction

def modeBefore (code : List Instruction) (behind : CrashMode) : Option CrashMode :=
  code.foldr (fun i mode => mode.bind i.before) (some behind)

def codeMode (code : List Instruction) : Option CrashMode := modeBefore code .quiet

section

variable {i : Instruction} {code pushed : List Instruction} {mode behind : CrashMode}

@[simp] theorem modeBefore_nil : modeBefore [] behind = some behind := rfl

@[simp] theorem modeBefore_cons :
    modeBefore (i :: code) behind = (modeBefore code behind).bind i.before := rfl

theorem modeBefore_append :
    modeBefore (pushed ++ code) behind = (modeBefore code behind).bind (modeBefore pushed) := by
  induction pushed with
  | nil => cases h : modeBefore code behind <;> simp [h]
  | cons i pushed ih =>
    rw [List.cons_append, modeBefore_cons, ih]
    cases modeBefore code behind <;> rfl

theorem codeMode_append : codeMode (pushed ++ code) = (codeMode code).bind (modeBefore pushed) :=
  modeBefore_append

theorem codeMode_cons : codeMode (i :: code) = (codeMode code).bind i.before := rfl

theorem modeBefore_of_forall (h : ∀ i ∈ code, i.before behind = some behind) :
    modeBefore code behind = some behind := by
  induction code with
  | nil => rfl
  | cons i code ih =>
    rw [modeBefore_cons, ih fun j hj => h j (List.mem_cons_of_mem _ hj)]
    exact h i List.mem_cons_self

/-- The mode counts what is under way: there is at most one log call, one callback and one claim. -/
theorem counts_of_codeMode (h : codeMode code = some mode) :
    code.countP Instruction.isLogRest = mode.logging.toNat ∧
      code.countP Instruction.isEndCallback = (mode.stage == .calling).toNat ∧
      code.countP Instruction.isRelease = mode.handling.toNat := by
  induction code generalizing mode with
  | nil =>
    cases h
    exact ⟨rfl, rfl, rfl⟩
  | cons i code ih =>
    rw [codeMode_cons] at h
    obtain ⟨behind, hbehind, hi⟩ := Option.bind_eq_some_iff.mp h
    obtain ⟨hlogs, hcallbacks, hclaims⟩ := ih hbehind
    rw [List.countP_cons, List.countP_cons, List.countP_cons, hlogs, hcallbacks, hclaims]
    cases i with
    | handle | callPlain | callDetailed | endHandler | restoreDefault | raise | raiseUpTo
    | restoreMask =>
      cases hi
      exact ⟨rfl, rfl, rfl⟩
    | format | endLog =>
      obtain ⟨hlogging, hmode⟩ := Option.ite_none_left_eq_some.mp hi
      cases hmode
      simp [Bool.eq_false_iff.mpr hlogging, Instruction.isLogRest, Instruction.isEndCallback,
        Instruction.isRelease, CrashMode.handling]
    | log | claim | forward =>
      obtain ⟨-, hmode⟩ := Option.ite_none_left_eq_some.mp hi
      cases hmode
      exact ⟨rfl, rfl, rfl⟩
    | runCallback | dumpBacktrace =>
      obtain ⟨-, hmode⟩ := Option.ite_none_right_eq_some.mp hi
      cases hmode
      exact ⟨rfl, rfl, rfl⟩
    | endCallback | release =>
      obtain ⟨rfl, hmode⟩ := Option.ite_none_right_eq_some.mp hi
      cases hmode
      exact ⟨rfl, rfl, rfl⟩

theorem flags_of_codeMode (h : codeMode code = some mode) :
    (mode.logging = true ↔ ∃ i ∈ code, i.isLogRest) ∧
      (mode.handling = true ↔ ∃ i ∈ code, i.isRelease) := by
  obtain ⟨hlogs, -, hclaims⟩ := counts_of_codeMode h
  rw [← List.countP_pos_iff, ← List.countP_pos_iff, hlogs, hclaims]
  cases mode.logging <;> cases mode.handling <;> decide

end

namespace CrashMachine

/-- The flags say what the code has under way. -/
def FollowsCode (m : CrashMachine) : Prop :=
  ∃ mode, codeMode m.code = some mode ∧ m.logging = mode.logging ∧ m.handling = mode.handling

variable {m m' : CrashMachine}

theorem FollowsCode.flags_eq (h : m.FollowsCode) (h' : m'.FollowsCode) (hcode : m.code = m'.code) :
    m'.logging = m.logging ∧ m'.handling = m.handling := by
  obtain ⟨mode, hmode, hlogging, hhandling⟩ := h
  obtain ⟨mode', hmode', hlogging', hhandling'⟩ := h'
  rw [hcode, hmode'] at hmode
  cases hmode
  exact ⟨hlogging'.trans hlogging.symm, hhandling'.trans hhandling.symm⟩

theorem FollowsCode.post (h : m.FollowsCode) (sig : Signal) (payload : ByteArray) :
    (m.post sig payload).FollowsCode := by
  unfold CrashMachine.post
  split <;> exact h

theorem FollowsCode.setAction (h : m.FollowsCode) (sig : Signal) (a : SignalAction) :
    (m.setAction sig a).FollowsCode := by
  unfold CrashMachine.setAction
  split <;> exact h

theorem FollowsCode.deliver (h : m.FollowsCode) (sig : Signal) : (m.deliver sig).FollowsCode := by
  obtain ⟨mode, hmode, hflags⟩ := h
  have hcall : ∀ call : Instruction, (∀ behind, call.before behind = some behind) →
      codeMode (m.enter sig call).code = some mode := by
    intro call hcall
    rw [enter, codeMode_cons, codeMode_cons, hmode]
    exact hcall mode
  obtain ⟨d, hd⟩ := (m.actions sig).exists_has
  rw [deliver_of_has hd]
  cases d with
  | byDefault | ignored => exact ⟨mode, hmode, hflags⟩
  | plain | detailed => exact ⟨mode, hcall _ fun _ => rfl, hflags⟩

theorem modeBefore_callback (actions : List CallbackAction) :
    modeBefore (actions.map CallbackAction.instruction ++ [.endCallback]) ⟨false, .claimed⟩ =
      some ⟨false, .calling⟩ := by
  rw [modeBefore_append]
  apply modeBefore_of_forall
  intro i hi
  obtain ⟨action, -, rfl⟩ := List.mem_map.mp hi
  cases action <;> rfl

theorem modeBefore_backtrace (frames : List String) :
    modeBefore (message "apicap: backtrace:\n" :: frames.map message) ⟨false, .claimed⟩ =
      some ⟨false, .claimed⟩ := by
  apply modeBefore_of_forall
  intro i hi
  obtain rfl | hi := List.mem_cons.mp hi
  · rfl
  · obtain ⟨s, -, rfl⟩ := List.mem_map.mp hi
    rfl

/-- Carrying out an instruction leads from the mode in which it stands to the mode of what it puts
in its place. -/
theorem followsCode_execute {i : Instruction} {behind mode : CrashMode}
    (hcode : codeMode m.code = some behind) (hi : i.before behind = some mode)
    (hlogging : m.logging = mode.logging) (hhandling : m.handling = mode.handling) :
    (m.execute i).FollowsCode := by
  -- What an instruction puts in front of the code starts in a mode of its own.
  have hpush : ∀ {pushed next} {m' : CrashMachine}, m'.code = pushed ++ m.code →
      modeBefore pushed behind = some next → m'.logging = next.logging →
      m'.handling = next.handling → m'.FollowsCode := by
    intro pushed next m' hm h hlogging hhandling
    refine ⟨next, ?_, hlogging, hhandling⟩
    rw [hm, codeMode_append, hcode]
    exact h
  cases i with
  | log pieces =>
    obtain ⟨hquiet, hmode⟩ := Option.ite_none_left_eq_some.mp hi
    cases hmode
    exact hpush rfl (if_neg hquiet) rfl hhandling
  | format line pieces =>
    match pieces with
    | [] | .text s :: pieces => exact hpush rfl hi hlogging hhandling
    | .raising sig s :: pieces =>
      refine hpush rfl ?_ hlogging hhandling
      rw [modeBefore_cons, modeBefore_cons, modeBefore_nil, Option.bind_some]
      exact congrArg (Option.bind · _) hi
  | endLog =>
    obtain ⟨hquiet, hmode⟩ := Option.ite_none_left_eq_some.mp hi
    cases hmode
    exact ⟨behind, hcode, (Bool.eq_false_iff.mpr hquiet).symm, hhandling⟩
  | handle =>
    cases hi
    rw [execute]
    split
    · exact ⟨behind, hcode, hlogging, hhandling⟩
    · next hquiet =>
      rw [hlogging] at hquiet
      exact hpush rfl (modeBefore_of_forall (by simp [Instruction.before, message, hquiet]))
        hlogging hhandling
  | claim =>
    obtain ⟨hquiet, hmode⟩ := Option.ite_none_left_eq_some.mp hi
    cases hmode
    rw [execute]
    split
    · exact hpush rfl (modeBefore_of_forall (by simp [Instruction.before, message, hquiet]))
        hlogging hhandling
    · next hfree =>
      rw [hhandling, Bool.not_eq_true] at hfree
      obtain rfl := CrashMode.eq_quiet (Bool.eq_false_iff.mpr hquiet) hfree
      exact hpush rfl rfl hlogging rfl
  | runCallback =>
    obtain ⟨rfl, hmode⟩ := Option.ite_none_right_eq_some.mp hi
    cases hmode
    rw [execute]
    split
    · exact ⟨_, hcode, hlogging, hhandling⟩
    · exact hpush rfl (modeBefore_callback _) hlogging hhandling
  | endCallback =>
    obtain ⟨rfl, hmode⟩ := Option.ite_none_right_eq_some.mp hi
    cases hmode
    exact ⟨_, hcode, hlogging, hhandling⟩
  | dumpBacktrace =>
    obtain ⟨rfl, hmode⟩ := Option.ite_none_right_eq_some.mp hi
    cases hmode
    exact hpush rfl (modeBefore_backtrace _) hlogging hhandling
  | release =>
    obtain ⟨rfl, hmode⟩ := Option.ite_none_right_eq_some.mp hi
    cases hmode
    exact ⟨_, hcode, hlogging, rfl⟩
  | forward =>
    obtain ⟨hquiet, hmode⟩ := Option.ite_none_left_eq_some.mp hi
    cases hmode
    rw [execute]
    split
    · exact hpush rfl (modeBefore_of_forall (by simp [Instruction.before, message, hquiet]))
        hlogging hhandling
    · exact ⟨_, hcode, hlogging, hhandling⟩
    · exact hpush rfl rfl hlogging hhandling
    · exact hpush rfl rfl hlogging hhandling
    · exact hpush rfl (modeBefore_of_forall (by simp [Instruction.before, message, hquiet]))
        hlogging hhandling
  | callPlain =>
    cases hi
    exact hpush rfl rfl hlogging hhandling
  | callDetailed =>
    cases hi
    rw [execute]
    split <;> exact hpush rfl rfl hlogging hhandling
  | endHandler | restoreMask =>
    cases hi
    exact ⟨_, hcode, hlogging, hhandling⟩
  | restoreDefault sig =>
    cases hi
    exact FollowsCode.setAction ⟨_, hcode, hlogging, hhandling⟩ sig .byDefault
  | raise sig =>
    cases hi
    exact FollowsCode.post ⟨_, hcode, hlogging, hhandling⟩ sig _
  | raiseUpTo sig limit =>
    cases hi
    rw [execute]
    split
    · apply FollowsCode.post
      exact ⟨_, hcode, hlogging, hhandling⟩
    · exact ⟨_, hcode, hlogging, hhandling⟩

theorem FollowsCode.step (h : m.FollowsCode) (hm : m.step = some m') : m'.FollowsCode := by
  unfold CrashMachine.step at hm
  split at hm
  · cases hm
  · split at hm
    · cases hm
      exact h.deliver _
    · split at hm
      · cases hm
      · next i code hcode =>
        cases hm
        obtain ⟨mode, hmode, hlogging, hhandling⟩ := h
        rw [hcode, codeMode_cons] at hmode
        obtain ⟨behind, hbehind, hi⟩ := Option.bind_eq_some_iff.mp hmode
        exact followsCode_execute hbehind hi hlogging hhandling

end CrashMachine

end TraceCapture
