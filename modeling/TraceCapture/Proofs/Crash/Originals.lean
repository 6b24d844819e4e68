import Mathlib.Data.List.DropRight
import TraceCapture.Proofs.Crash.Reentrancy

set_option autoImplicit false

/-!
# What signals did originally

The crash handler chains to what a signal did before, so it must never take itself for that. Only
the first installation saves dispositions, before which nothing has changed any; afterwards only
signals that were taken over ever change theirs, since the code of the crash handler acts for no
others. Which callback is registered follows from the calls alone.
-/

namespace TraceCapture

namespace Signal

def CanIntercept (sig : Signal) : Prop := 1 ≤ sig ∧ sig < 16 ∧ sig ≠ kill ∧ sig ≠ pipe

instance (sig : Signal) : Decidable sig.CanIntercept :=
  inferInstanceAs (Decidable (1 ≤ sig ∧ sig < 16 ∧ sig ≠ kill ∧ sig ≠ pipe))

theorem isIntercepted_iff {sig : Signal} : sig.isIntercepted = true ↔ sig.CanIntercept := by
  constructor
  · intro h
    have hall : ∀ sig ∈ intercepted, sig.CanIntercept := by decide
    exact hall sig (List.contains_iff_mem.mp h)
  · intro h
    have hall : ∀ n < 16, CanIntercept (Int.ofNat n) → isIntercepted (Int.ofNat n) = true := by
      decide
    obtain ⟨n, rfl⟩ := Int.eq_ofNat_of_zero_le (Int.le_of_lt h.1)
    exact hall n (Int.ofNat_lt.mp h.2.1) h

theorem nodup_intercepted : intercepted.Nodup := by decide

end Signal

def Instruction.crashSignal? : Instruction → Option Signal
  | .handle sig _ | .claim sig _ | .forward sig _ | .restoreDefault sig => some sig
  | .callDetailed handler sig _ => if handler = crashHandler then some sig else none
  | _ => none

inductive RegistryCall where
  | install
  | setExceptionCallback (c : Callback)
  | setCallback (c : Callback)
  | resetCallback
  deriving DecidableEq

namespace RegistryCall

def isReset : RegistryCall → Bool
  | resetCallback => true
  | _ => false

def callback? : RegistryCall → Option Callback
  | setExceptionCallback c | setCallback c => some c
  | _ => none

def registers (callback : Option Callback) (call : RegistryCall) : Option Callback :=
  if call.isReset then none else callback.or call.callback?

/-- The callback that some calls leave registered: the first that was set since the last reset. -/
def registered (calls : List RegistryCall) : Option Callback :=
  (calls.rtakeWhile fun call => !call.isReset).findSome? callback?

/-- Whether a call installs the crash handler unless that is done, given the callback that is
registered. A checked build does not get that far where a second callback is refused. -/
def installs (p : Profile) (callback : Option Callback) : RegistryCall → Bool
  | install => true
  | setExceptionCallback _ => p = .unchecked || callback.isNone
  | setCallback _ | resetCallback => false

theorem registered_concat (calls : List RegistryCall) (call : RegistryCall) :
    registered (calls ++ [call]) = call.registers (registered calls) := by
  rw [registered, List.rtakeWhile_concat]
  cases call with
  | resetCallback => rfl
  | install | setExceptionCallback | setCallback => exact List.findSome?_append

end RegistryCall

namespace CrashMachine

def perform (p : Profile) (m : CrashMachine) : RegistryCall → Except Violation Unit × CrashMachine
  | .install => m.install p
  | .setExceptionCallback c => m.setExceptionCallback p c
  | .setCallback c => m.setCallback p c
  | .resetCallback => (.ok (), m.resetCallback)

/-- A run with the calls that are made on it. Signals arrive and calls are made at any moment, and
a call that panics is one like the others. -/
inductive RegistryRun (p : Profile) (m₀ : CrashMachine) : List RegistryCall → CrashMachine → Prop
  | refl : RegistryRun p m₀ [] m₀
  | arrive {calls : List RegistryCall} {m : CrashMachine} (h : RegistryRun p m₀ calls m)
      (sig : Signal) (payload : ByteArray) : RegistryRun p m₀ calls (m.post sig payload)
  | compute {calls : List RegistryCall} {m : CrashMachine} (h : RegistryRun p m₀ calls m)
      (registers : ByteArray) : RegistryRun p m₀ calls { m with registers }
  | step {calls : List RegistryCall} {m m' : CrashMachine} (h : RegistryRun p m₀ calls m)
      (hm : m.step = some m') : RegistryRun p m₀ calls m'
  | call {calls : List RegistryCall} {m : CrashMachine} (h : RegistryRun p m₀ calls m)
      (call : RegistryCall) : RegistryRun p m₀ (calls ++ [call]) (m.perform p call).2

structure Unregistered (m : CrashMachine) : Prop where
  hcode : m.code = []
  hinstalled : m.installed = false
  hcallback : m.callback = none
  hactions : ∀ sig, (m.actions sig).handler ≠ crashHandler

structure KeepsOriginals (m₀ m : CrashMachine) : Prop where
  not_installed : m.installed = false → m.actions = m₀.actions
  others : ∀ sig, ¬sig.CanIntercept → m.actions sig = m₀.actions sig
  saved : m.installed = true → ∀ sig, sig.CanIntercept →
    m.saved sig = .store (.ofAction (m₀.actions sig))
  acts_for : ∀ i ∈ m.code, ∀ sig, i.crashSignal? = some sig →
    m.installed = true ∧ sig.CanIntercept

structure HoldsOriginals (p : Profile) (m₀ : CrashMachine) (calls : List RegistryCall)
    (m : CrashMachine) : Prop where
  installed_iff : m.installed = true ↔ ∃ earlier call, earlier ++ [call] <+: calls ∧
    call.installs p (RegistryCall.registered earlier) = true
  /-- Before the installation there is nothing to tell, and nothing has changed. -/
  not_installed : m.installed = false → ∀ sig,
    m.previousDisposition sig = none ∧ m.actions sig = m₀.actions sig
  /-- There was a moment just before the installation, and what signals did then is held. -/
  installed : m.installed = true → ∃ earlier call later before,
    calls = earlier ++ call :: later ∧ RegistryRun p m₀ earlier before ∧
      before.installed = false ∧ (before.perform p call).2.installed = true ∧
      RegistryRun p (before.perform p call).2 later m ∧
      ∀ sig, sig.CanIntercept → ∃ d, m.previousDisposition sig = some d ∧
        (before.actions sig).Has d ∧ d.handler? ≠ some crashHandler
  others : ∀ sig, ¬sig.CanIntercept →
    m.previousDisposition sig = none ∧ m.actions sig = m₀.actions sig
  callback_eq : m.callback = RegistryCall.registered calls

variable {p : Profile} {m₀ m m' : CrashMachine} {calls : List RegistryCall}

theorem crashSignal?_instruction (action : CallbackAction) :
    (CallbackAction.instruction action).crashSignal? = none := by
  cases action <;> rfl

theorem not_mem_intercepted {sig : Signal} (h : ¬sig.CanIntercept) :
    sig ∉ Signal.intercepted := by
  rwa [← List.contains_iff_mem, ← Signal.isIntercepted, Signal.isIntercepted_iff]

theorem setAction_keeps (m : CrashMachine) (sig : Signal) (a : SignalAction) :
    (m.setAction sig a).installed = m.installed ∧ (m.setAction sig a).saved = m.saved ∧
      ∀ other ≠ sig, (m.setAction sig a).actions other = m.actions other := by
  unfold setAction
  split
  · exact ⟨rfl, rfl, fun _ hother => SignalAction.Table.set_of_ne _ _ hother⟩
  · exact ⟨rfl, rfl, fun _ _ => rfl⟩

theorem installed_post (m : CrashMachine) (sig : Signal) (payload : ByteArray) :
    (m.post sig payload).installed = m.installed := by
  unfold post
  split <;> rfl

/-- Taking over signals saves what each of them did, and nothing else. -/
theorem foldl_intercept {sigs : List Signal} (hsigs : sigs.Nodup) (m : CrashMachine) :
    (sigs.foldl intercept m).code = m.code ∧ (sigs.foldl intercept m).callback = m.callback ∧
      (sigs.foldl intercept m).installed = m.installed ∧
      (∀ sig ∈ sigs, (sigs.foldl intercept m).saved sig = .store (.ofAction (m.actions sig))) ∧
      ∀ sig ∉ sigs, (sigs.foldl intercept m).saved sig = m.saved sig ∧
        (sigs.foldl intercept m).actions sig = m.actions sig := by
  induction sigs generalizing m with
  | nil => exact ⟨rfl, rfl, rfl, nofun, fun _ _ => ⟨rfl, rfl⟩⟩
  | cons sig sigs ih =>
    obtain ⟨hsig, hsigs⟩ := List.nodup_cons.mp hsigs
    obtain ⟨hcode, hcallback, hinstalled, hmem, hnot⟩ := ih hsigs (m.intercept sig)
    obtain ⟨hinstalled', hsaved', hactions'⟩ := setAction_keeps (m.save sig) sig .crash
    change (m.intercept sig).installed = _ at hinstalled'
    change (m.intercept sig).saved = _ at hsaved'
    refine ⟨hcode.trans (code_setAction _ _), hcallback.trans (callback_setAction _ _),
      hinstalled.trans hinstalled', ?_, ?_⟩
    · intro other hother
      obtain rfl | hother := List.mem_cons.mp hother
      · -- The signals behind it are others: what was saved for this one is still there.
        rw [List.foldl_cons, (hnot _ hsig).1, hsaved', saved_save_self]
      · have hne : other ≠ sig := fun heq => hsig (heq ▸ hother)
        have hactions : (m.intercept sig).actions other = m.actions other := hactions' other hne
        rw [List.foldl_cons, hmem other hother, hactions]
    · intro other hother
      rw [List.mem_cons, not_or] at hother
      obtain ⟨hne, hother⟩ := hother
      rw [List.foldl_cons, (hnot other hother).1, (hnot other hother).2, hsaved',
        saved_save_of_ne m hne]
      exact ⟨rfl, hactions' other hne⟩

theorem installOnce_registers (m : CrashMachine) :
    m.installOnce.2.callback = m.callback ∧ m.installOnce.2.installed = true := by
  unfold installOnce
  split
  · next hinstalled => exact ⟨rfl, hinstalled⟩
  · obtain ⟨-, hcallback, hinstalled, -⟩ :=
      foldl_intercept Signal.nodup_intercepted { m with installed := true }
    exact ⟨hcallback, hinstalled⟩

theorem perform_eq (p : Profile) (m : CrashMachine) (call : RegistryCall) :
    (m.perform p call).2 =
      if call.installs p m.callback then
        { m with callback := call.registers m.callback }.installOnce.2
      else { m with callback := call.registers m.callback } := by
  obtain ⟨_, _, _, _, _, _, _, _, _, _, _, callback, _, _, _, _⟩ := m
  cases call with
  | install | resetCallback => cases callback <;> rfl
  | setExceptionCallback c | setCallback c => cases callback <;> cases p <;> rfl

theorem perform_registers (p : Profile) (m : CrashMachine) (call : RegistryCall) :
    (m.perform p call).2.callback = call.registers m.callback ∧
      (m.perform p call).2.installed = (m.installed || call.installs p m.callback) := by
  rw [perform_eq]
  split
  · next hinstalls =>
    obtain ⟨hcallback, hinstalled⟩ :=
      installOnce_registers { m with callback := call.registers m.callback }
    exact ⟨hcallback, by rw [hinstalled, hinstalls, Bool.or_true]⟩
  · next hinstalls => exact ⟨rfl, by rw [Bool.eq_false_iff.mpr hinstalls, Bool.or_false]⟩

theorem installed_execute (m : CrashMachine) (i : Instruction) :
    (m.execute i).installed = m.installed := by
  cases i with
  | format line pieces =>
    match pieces with
    | [] | .text _ :: _ | .raising _ _ :: _ => rfl
  | handle | claim | runCallback | forward | callDetailed =>
    rw [execute]
    split <;> rfl
  | log | dumpBacktrace | callPlain | endLog | endCallback | release | endHandler
  | restoreMask => rfl
  | restoreDefault sig => exact (setAction_keeps m sig .byDefault).1
  | raise sig => exact installed_post m sig _
  | raiseUpTo sig limit =>
    rw [execute]
    split
    · exact installed_post _ sig _
    · rfl

/-- A step delivers a signal or carries out an instruction. -/
theorem step_cases (hm : m.step = some m') :
    (∃ sig, m.deliverable = some sig ∧ m' = m.deliver sig) ∨
      ∃ i code, m.code = i :: code ∧ m' = { m with code }.execute i := by
  unfold CrashMachine.step at hm
  split at hm
  · cases hm
  · split at hm
    · next sig hsig => exact .inl ⟨sig, hsig, (Option.some.inj hm).symm⟩
    · split at hm
      · cases hm
      · next i code hcode => exact .inr ⟨i, code, hcode, (Option.some.inj hm).symm⟩

theorem step_registers (hm : m.step = some m') :
    m'.callback = m.callback ∧ m'.installed = m.installed := by
  obtain ⟨sig, -, rfl⟩ | ⟨i, code, -, rfl⟩ := step_cases hm
  · refine ⟨(deliver_spec m sig).2, ?_⟩
    obtain ⟨d, hd⟩ := (m.actions sig).exists_has
    rw [deliver_of_has hd]
    cases d <;> rfl
  · exact ⟨(execute_spec _ i).2, installed_execute _ i⟩

theorem KeepsOriginals.post (h : KeepsOriginals m₀ m) (sig : Signal) (payload : ByteArray) :
    KeepsOriginals m₀ (m.post sig payload) := by
  unfold CrashMachine.post
  split
  · exact ⟨h.not_installed, h.others, h.saved, h.acts_for⟩
  · exact h

/-- Delivering a signal changes no dispositions. The crash handler is entered only for a signal that
was taken over, because no other signal ever had it. -/
theorem KeepsOriginals.deliver (h₀ : ∀ sig, (m₀.actions sig).handler ≠ crashHandler)
    (h : KeepsOriginals m₀ m) (sig : Signal) : KeepsOriginals m₀ (m.deliver sig) := by
  -- a call that acts for `sig` is the crash handler's, which `sig` has only if it was taken over
  have henter : ∀ {call : Instruction},
      (∀ other, call.crashSignal? = some other →
        other = sig ∧ (m.actions sig).handler = crashHandler) →
      ∀ i ∈ (m.enter sig call).code, ∀ other, i.crashSignal? = some other →
        m.installed = true ∧ other.CanIntercept := by
    intro call hcall i hi other hother
    obtain rfl | hi := List.mem_cons.mp hi
    · obtain ⟨rfl, hcrash⟩ := hcall other hother
      constructor
      · by_contra hnot
        rw [h.not_installed (Bool.eq_false_iff.mpr hnot)] at hcrash
        exact h₀ _ hcrash
      · by_contra hnot
        rw [h.others _ hnot] at hcrash
        exact h₀ _ hcrash
    · obtain rfl | hi := List.mem_cons.mp hi
      · cases hother
      · exact h.acts_for i hi other hother
  obtain ⟨d, hd⟩ := (m.actions sig).exists_has
  rw [deliver_of_has hd]
  cases d with
  | byDefault | ignored => exact ⟨h.not_installed, h.others, h.saved, h.acts_for⟩
  | plain => exact ⟨h.not_installed, h.others, h.saved, henter nofun⟩
  | detailed handler =>
    refine ⟨h.not_installed, h.others, h.saved, henter fun other hother => ?_⟩
    obtain ⟨rfl, hsig⟩ := Option.ite_none_right_eq_some.mp hother
    exact ⟨(Option.some.inj hsig).symm, hd.handler_eq rfl⟩

/-- Nor does an instruction, but the one that restores a default. What it puts in front of the code
acts for the signal that it acts for itself. -/
theorem KeepsOriginals.execute {i : Instruction} {code : List Instruction}
    (h : KeepsOriginals m₀ m) (hcode : m.code = i :: code) :
    KeepsOriginals m₀ ({ m with code }.execute i) := by
  have hi := h.acts_for i (hcode ▸ List.mem_cons_self)
  have hbehind : ∀ j ∈ code, ∀ sig, j.crashSignal? = some sig →
      m.installed = true ∧ sig.CanIntercept :=
    fun j hj => h.acts_for j (hcode ▸ List.mem_cons_of_mem i hj)
  -- all instructions but `restoreDefault` leave dispositions alone and at most put code in front
  have hpush : ∀ (pushed : List Instruction) {m' : CrashMachine}, m'.code = pushed ++ code →
      (∀ j ∈ pushed, ∀ sig, j.crashSignal? = some sig → i.crashSignal? = some sig) →
      m'.installed = m.installed → m'.saved = m.saved → m'.actions = m.actions →
      KeepsOriginals m₀ m' := by
    intro pushed m' hm' hpushed hinstalled hsaved hactions
    refine ⟨?_, ?_, ?_, ?_⟩
    · rw [hinstalled, hactions]
      exact h.not_installed
    · rw [hactions]
      exact h.others
    · rw [hinstalled, hsaved]
      exact h.saved
    · rw [hm', hinstalled]
      intro j hj sig hsig
      obtain hj | hj := List.mem_append.mp hj
      · exact hi sig (hpushed j hj sig hsig)
      · exact hbehind j hj sig hsig
  have hkeep : KeepsOriginals m₀ { m with code } := hpush [] rfl nofun rfl rfl rfl
  cases i with
  | log | callPlain => exact hpush _ rfl (by simp [Instruction.crashSignal?]) rfl rfl rfl
  | format line pieces =>
    match pieces with
    | [] | .text _ :: _ | .raising _ _ :: _ =>
      exact hpush _ rfl (by simp [Instruction.crashSignal?]) rfl rfl rfl
  | dumpBacktrace =>
    exact hpush _ rfl (by simp [Instruction.crashSignal?, message]) rfl rfl rfl
  | handle =>
    rw [CrashMachine.execute]
    split
    · exact hkeep
    · exact hpush _ rfl (by simp [Instruction.crashSignal?, message]) rfl rfl rfl
  | claim =>
    rw [CrashMachine.execute]
    split
    · exact hpush _ rfl (by simp [Instruction.crashSignal?, message]) rfl rfl rfl
    · exact hpush _ rfl (by simp [Instruction.crashSignal?]) rfl rfl rfl
  | runCallback =>
    rw [CrashMachine.execute]
    split
    · exact hkeep
    · refine hpush _ rfl ?_ rfl rfl rfl
      intro j hj sig hsig
      obtain hj | hj := List.mem_append.mp hj
      · obtain ⟨action, -, rfl⟩ := List.mem_map.mp hj
        cases (crashSignal?_instruction action).symm.trans hsig
      · obtain rfl := List.mem_singleton.mp hj
        cases hsig
  | forward =>
    rw [CrashMachine.execute]
    split
    · exact hpush _ rfl (by simp [Instruction.crashSignal?, message]) rfl rfl rfl
    · exact hkeep
    · exact hpush _ rfl (by simp [Instruction.crashSignal?]) rfl rfl rfl
    · exact hpush _ rfl (by simp [Instruction.crashSignal?]) rfl rfl rfl
    · exact hpush _ rfl (by simp [Instruction.crashSignal?, message]) rfl rfl rfl
  | callDetailed =>
    rw [CrashMachine.execute]
    split
    · next hcrash =>
      exact hpush _ rfl (by simp [Instruction.crashSignal?, hcrash]) rfl rfl rfl
    · exact hpush _ rfl (by simp [Instruction.crashSignal?]) rfl rfl rfl
  | endLog | endCallback | release | endHandler | restoreMask =>
    exact hpush [] rfl nofun rfl rfl rfl
  | raise sig => exact hkeep.post sig _
  | raiseUpTo sig limit =>
    rw [CrashMachine.execute]
    split
    · apply KeepsOriginals.post
      exact hpush [] rfl nofun rfl rfl rfl
    · exact hkeep
  | restoreDefault sig =>
    obtain ⟨hinstalled, hsig⟩ := hi sig rfl
    obtain ⟨hinstalled', hsaved', hactions'⟩ := setAction_keeps { m with code } sig .byDefault
    refine ⟨?_, ?_, ?_, ?_⟩
    · intro hnot
      cases hinstalled.symm.trans (hinstalled'.symm.trans hnot)
    · intro other hother
      exact (hactions' other fun heq => hother (heq ▸ hsig)).trans (h.others other hother)
    · intro _
      rw [CrashMachine.execute, hsaved']
      exact h.saved hinstalled
    · rw [CrashMachine.execute, code_setAction, hinstalled']
      exact hbehind

theorem KeepsOriginals.step (h₀ : ∀ sig, (m₀.actions sig).handler ≠ crashHandler)
    (h : KeepsOriginals m₀ m) (hm : m.step = some m') : KeepsOriginals m₀ m' := by
  obtain ⟨sig, -, rfl⟩ | ⟨i, code, hcode, rfl⟩ := step_cases hm
  · exact h.deliver h₀ sig
  · exact h.execute hcode

/-- An installation saves what the signals did at the start, unless there was one before. -/
theorem KeepsOriginals.installOnce (h : KeepsOriginals m₀ m) :
    KeepsOriginals m₀ m.installOnce.2 := by
  unfold CrashMachine.installOnce
  split
  · exact h
  · next hnot =>
    obtain ⟨hcode, -, hinstalled, hmem, hothers⟩ :=
      foldl_intercept Signal.nodup_intercepted { m with installed := true }
    have hactions := h.not_installed (Bool.eq_false_iff.mpr hnot)
    refine ⟨?_, ?_, ?_, ?_⟩
    · intro hinstalled'
      cases hinstalled.symm.trans hinstalled'
    · intro sig hsig
      exact (hothers sig (not_mem_intercepted hsig)).2.trans (h.others sig hsig)
    · intro _ sig hsig
      rw [← Signal.isIntercepted_iff] at hsig
      rw [hmem sig (List.contains_iff_mem.mp hsig), hactions]
    · intro i hi sig hsig
      exact absurd (h.acts_for i (hcode ▸ hi) sig hsig).1 hnot

theorem KeepsOriginals.perform (h : KeepsOriginals m₀ m) (p : Profile) (call : RegistryCall) :
    KeepsOriginals m₀ (m.perform p call).2 := by
  have hregister : ∀ callback, KeepsOriginals m₀ { m with callback } :=
    fun _ => ⟨h.not_installed, h.others, h.saved, h.acts_for⟩
  rw [perform_eq]
  split
  · exact (hregister _).installOnce
  · exact hregister _

theorem RegistryRun.keepsOriginals (h₀ : m₀.Unregistered) (h : RegistryRun p m₀ calls m) :
    KeepsOriginals m₀ m := by
  induction h with
  | refl =>
    refine ⟨fun _ => rfl, fun _ _ => rfl, ?_, ?_⟩
    · intro hinstalled
      cases h₀.hinstalled.symm.trans hinstalled
    · rw [h₀.hcode]
      exact nofun
  | arrive _ sig payload ih => exact ih.post sig payload
  | compute _ registers ih => exact ⟨ih.not_installed, ih.others, ih.saved, ih.acts_for⟩
  | step _ hm ih => exact ih.step h₀.hactions hm
  | call _ call ih => exact ih.perform p call

theorem RegistryRun.callback_eq (h₀ : m₀.Unregistered) (h : RegistryRun p m₀ calls m) :
    m.callback = RegistryCall.registered calls := by
  induction h with
  | refl => exact h₀.hcallback
  | arrive _ sig payload ih => exact (callback_post sig payload).trans ih
  | compute _ registers ih => exact ih
  | step _ hm ih => exact (step_registers hm).1.trans ih
  | call _ call ih => rw [RegistryCall.registered_concat, (perform_registers _ _ _).1, ih]

theorem RegistryRun.installed_iff (h₀ : m₀.Unregistered) (h : RegistryRun p m₀ calls m) :
    m.installed = true ↔ ∃ earlier call, earlier ++ [call] <+: calls ∧
      call.installs p (RegistryCall.registered earlier) = true := by
  induction h with
  | refl => simp [h₀.hinstalled]
  | arrive _ sig payload ih => rw [installed_post, ih]
  | compute _ registers ih => exact ih
  | step _ hm ih => rw [(step_registers hm).2, ih]
  | @call calls m h call ih =>
    rw [(perform_registers _ _ _).2, Bool.or_eq_true, ih, h.callback_eq h₀]
    constructor
    · rintro (⟨earlier, call', hprefix, hinstalls⟩ | hinstalls)
      · exact ⟨earlier, call', hprefix.trans (List.prefix_append _ _), hinstalls⟩
      · exact ⟨calls, call, List.prefix_rfl, hinstalls⟩
    · rintro ⟨earlier, call', hprefix, hinstalls⟩
      obtain heq | hprefix := List.prefix_concat_iff.mp hprefix
      · obtain ⟨rfl, hcall⟩ := List.append_inj' heq rfl
        cases hcall
        exact .inr hinstalls
      · exact .inl ⟨earlier, call', hprefix, hinstalls⟩

/-- The run is cut at the call that installs. -/
theorem RegistryRun.exists_installation (h₀ : m₀.installed = false) (h : RegistryRun p m₀ calls m)
    (hm : m.installed = true) : ∃ earlier call later before,
      calls = earlier ++ call :: later ∧ RegistryRun p m₀ earlier before ∧
        before.installed = false ∧ (before.perform p call).2.installed = true ∧
        RegistryRun p (before.perform p call).2 later m := by
  induction h with
  | refl => cases h₀.symm.trans hm
  | arrive _ sig payload ih =>
    obtain ⟨earlier, call, later, before, hcalls, hbefore, hnot, hcall, hlater⟩ :=
      ih ((installed_post _ sig payload).symm.trans hm)
    exact ⟨earlier, call, later, before, hcalls, hbefore, hnot, hcall, hlater.arrive sig payload⟩
  | compute _ registers ih =>
    obtain ⟨earlier, call, later, before, hcalls, hbefore, hnot, hcall, hlater⟩ := ih hm
    exact ⟨earlier, call, later, before, hcalls, hbefore, hnot, hcall, hlater.compute registers⟩
  | step _ hstep ih =>
    obtain ⟨earlier, call, later, before, hcalls, hbefore, hnot, hcall, hlater⟩ :=
      ih ((step_registers hstep).2.symm.trans hm)
    exact ⟨earlier, call, later, before, hcalls, hbefore, hnot, hcall, hlater.step hstep⟩
  | @call calls m h call ih =>
    cases hinstalled : m.installed with
    | true =>
      obtain ⟨earlier, call', later, before, hcalls, hbefore, hnot, hcall, hlater⟩ := ih hinstalled
      refine ⟨earlier, call', later ++ [call], before, ?_, hbefore, hnot, hcall, hlater.call call⟩
      rw [hcalls, List.append_assoc, List.cons_append]
    | false => exact ⟨calls, call, [], m, rfl, h, hinstalled, hm, .refl⟩

theorem previousDisposition_of_canIntercept {sig : Signal} (hm : m.installed = true)
    (hsig : sig.CanIntercept) : m.previousDisposition sig = some (m.saved sig).load := by
  have hroom : 0 ≤ sig ∧ sig < Signal.interceptionLimit := ⟨Int.le_of_lt hsig.1, hsig.2.1⟩
  rw [previousDisposition, hm, Signal.isIntercepted_iff.mpr hsig, Bool.and_self, if_pos rfl,
    savedDisposition, if_pos hroom]

/-- Whatever calls are made and whatever signals arrive, the registry holds what signals did before
the crash handler was installed, and the callback that came first. -/
theorem originals_are_held (h₀ : m₀.Unregistered) (h : RegistryRun p m₀ calls m) :
    HoldsOriginals p m₀ calls m := by
  have hkeeps := h.keepsOriginals h₀
  refine ⟨h.installed_iff h₀, ?_, ?_, ?_, h.callback_eq h₀⟩
  · intro hnot sig
    refine ⟨?_, congrFun (hkeeps.not_installed hnot) sig⟩
    rw [previousDisposition, hnot, Bool.false_and, if_neg Bool.false_ne_true]
  · intro hinstalled
    obtain ⟨earlier, call, later, before, hcalls, hbefore, hnot, hcall, hlater⟩ :=
      h.exists_installation h₀.hinstalled hinstalled
    have hactions := (hbefore.keepsOriginals h₀).not_installed hnot
    refine ⟨earlier, call, later, before, hcalls, hbefore, hnot, hcall, hlater, ?_⟩
    intro sig hsig
    obtain ⟨d, hd⟩ := (m₀.actions sig).exists_has
    rw [hactions, previousDisposition_of_canIntercept hinstalled hsig,
      hkeeps.saved hinstalled sig hsig, hd.load_store]
    exact ⟨d, rfl, hd, fun hcrash => h₀.hactions sig (hd.handler_eq hcrash)⟩
  · intro sig hsig
    refine ⟨?_, hkeeps.others sig hsig⟩
    rw [previousDisposition, Bool.eq_false_iff.mpr (mt Signal.isIntercepted_iff.mp hsig),
      Bool.and_false, if_neg Bool.false_ne_true]

theorem RegistryRun.steps (h : RegistryRun p m₀ calls m) (n : Nat) :
    RegistryRun p m₀ calls (steps n m) := by
  induction n generalizing m with
  | zero => exact h
  | succ n ih =>
    unfold CrashMachine.steps
    split
    · next hstep => exact ih (h.step hstep)
    · exact h

def handlingTermination : CrashMachine :=
  { initial with actions := fun sig =>
      if sig = .terminate then ⟨8192, true, false⟩ else if sig = .pipe then ⟨1, false, false⟩
      else .byDefault }

/-- A second callback is refused before anything is installed, so the first call of `install` is the
one that counts; a second one is refused, and signals that are delivered in between change nothing
of what is held. -/
theorem handlingTermination_holds_originals :
    ∃ m, handlingTermination.Unregistered ∧
      RegistryRun .checked handlingTermination
        [.setCallback [], .setExceptionCallback [.log "lost"], .install, .install, .resetCallback,
          .setCallback [.log "kept"]] m ∧
      m.installed = true ∧ m.previousDisposition .terminate = some (.detailed 8192) ∧
      m.previousDisposition 1 = some .byDefault ∧ m.previousDisposition .pipe = none ∧
      m.actions .pipe = ⟨1, false, false⟩ ∧ m.callback = some [.log "kept"] := by
  have hstart : handlingTermination.Unregistered := by
    refine ⟨rfl, rfl, rfl, fun sig => ?_⟩
    unfold handlingTermination
    dsimp only
    split
    · decide
    · split <;> decide
  obtain ⟨m, hrun⟩ : ∃ m, RegistryRun .checked handlingTermination
      [.setCallback [], .setExceptionCallback [.log "lost"], .install, .install, .resetCallback,
        .setCallback [.log "kept"]] m :=
    have hinstall := ((RegistryRun.refl.call (.setCallback [])).call
      (.setExceptionCallback [.log "lost"])).call .install
    ⟨_, ((((hinstall.arrive .terminate ⟨#[42]⟩).steps 10).call .install).call
      .resetCallback).call (.setCallback [.log "kept"])⟩
  have hheld := originals_are_held hstart hrun
  have hinstalled := hheld.installed_iff.mpr
    ⟨[.setCallback [], .setExceptionCallback [.log "lost"]], .install, ⟨_, rfl⟩, rfl⟩
  obtain ⟨earlier, call, later, before, -, hbefore, hnot, -, -, hprevious⟩ :=
    hheld.installed hinstalled
  have hbefore' := (originals_are_held hstart hbefore).not_installed hnot
  have htold : ∀ sig d, sig.CanIntercept → (handlingTermination.actions sig).Has d →
      m.previousDisposition sig = some d := by
    intro sig d hsig hd
    obtain ⟨d', hd', hhas, -⟩ := hprevious sig hsig
    rw [(hbefore' sig).2] at hhas
    rw [hd', hhas.unique hd]
  exact ⟨m, hstart, hrun, hinstalled,
    htold .terminate _ (by decide) (.detailed false (by decide)),
    htold 1 _ (by decide) (.byDefault false false), (hheld.others .pipe (by decide)).1,
    (hheld.others .pipe (by decide)).2, hheld.callback_eq⟩

end CrashMachine

end TraceCapture
