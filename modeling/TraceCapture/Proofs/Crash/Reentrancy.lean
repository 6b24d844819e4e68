import Mathlib.Logic.Relation
import TraceCapture.Proofs.Crash.Modes

set_option autoImplicit false

/-!
# Signals inside signals

A signal may arrive at any moment: in a log call, in the callback, in the backtrace, in the handler
that is called behind it, and in whatever a signal that arrived there has set going. The invocation
of a handler is told by the code behind it, which stays as it is until the invocation returns.
-/

namespace TraceCapture

inductive Instruction.FromProgram : Instruction → Prop
  | log (pieces : List LogPiece) : FromProgram (.log pieces)
  | raise (sig : Signal) : FromProgram (.raise sig)
  | callDetailed (handler : UInt64) (sig : Signal) (details : SignalDetails) :
      FromProgram (.callDetailed handler sig details)

namespace CrashMachine

/-- What may happen next: a signal arrives at any moment, the program computes, it makes a step, or,
having nothing to do, it starts something or changes what signals do. -/
inductive Next : CrashMachine → CrashMachine → Prop
  | arrive (m : CrashMachine) (sig : Signal) (payload : ByteArray) : Next m (m.post sig payload)
  | compute (m : CrashMachine) (registers : ByteArray) : Next m { m with registers }
  | step {m m' : CrashMachine} (h : m.step = some m') : Next m m'
  | start {m : CrashMachine} {i : Instruction} (hrest : m.code = []) (hi : i.FromProgram) :
      Next m (m.doFirst [i])
  | install {m : CrashMachine} (p : Profile) (hrest : m.code = []) : Next m (m.install p).2
  | setCallback {m : CrashMachine} (p : Profile) (c : Callback) (hrest : m.code = []) :
      Next m (m.setCallback p c).2
  | resetCallback {m : CrashMachine} (hrest : m.code = []) : Next m m.resetCallback
  | setAction {m : CrashMachine} (sig : Signal) (a : SignalAction) (hrest : m.code = []) :
      Next m (m.setAction sig a)
  | setMask {m : CrashMachine} (blocked : List Signal) (hrest : m.code = []) :
      Next m { m with blocked }

def Reaches : CrashMachine → CrashMachine → Prop := Relation.ReflTransGen Next

def NextAbove (rest : List Instruction) (m m' : CrashMachine) : Prop :=
  (∃ i code, m.code = i :: (code ++ rest)) ∧ m.Next m'

/-- A run up to the moment when the code may be down to the given rest. -/
def RunsAbove (rest : List Instruction) : CrashMachine → CrashMachine → Prop :=
  Relation.ReflTransGen (NextAbove rest)

def Returns (rest : List Instruction) (m m' : CrashMachine) : Prop :=
  RunsAbove rest m m' ∧ m'.code = rest

def callbackOnwards (actions : Callback) (sig : Signal) (details : SignalDetails) :
    List Instruction :=
  actions.map CallbackAction.instruction ++
    [.endCallback, .dumpBacktrace, .release, .forward sig details]

/-- On its way to the return the invocation itself, not one inside it, runs the callback that is
registered. -/
def RunsCallback (sig : Signal) (details : SignalDetails) (rest : List Instruction)
    (m m' : CrashMachine) : Prop :=
  ∃ m₁ actions, RunsAbove rest m m₁ ∧ m₁.callback = some actions ∧
    m₁.code = callbackOnwards actions sig details ++ rest ∧ RunsAbove rest m₁ m'

structure Quiet (m : CrashMachine) : Prop where
  hcode : m.code = []
  hlogging : m.logging = false
  hhandling : m.handling = false

/-- What holds of a program whatever signals it is in. -/
structure Reentrant (m : CrashMachine) : Prop where
  /-- The callback is never running twice at once. -/
  callback_once : m.code.countP Instruction.isEndCallback ≤ 1
  logging_iff : m.logging = true ↔ ∃ i ∈ m.code, i.isLogRest
  handling_iff : m.handling = true ↔ ∃ i ∈ m.code, i.isRelease
  /-- A signal that is delivered during a log call is dropped, and nothing else changes. -/
  dropped : ∀ sig, m.logging = true → m.killedBy = none → m.deliverable = some sig →
    (m.actions sig).Has (.detailed crashHandler) → (m.take sig).deliverable = none →
    steps 4 m = m.take sig
  /-- So is the invocation if other signals come first. -/
  ignored : ∀ sig details rest, m.code = .handle sig details :: rest → (∃ i ∈ rest, i.isLogRest) →
    m.killedBy = none → m.deliverable = none → m.step = some { m with code := rest }
  /-- An invocation that returns leaves the flags as it found them. -/
  flags_kept : ∀ sig details rest m', m.code = .handle sig details :: rest → Returns rest m m' →
    m'.logging = m.logging ∧ m'.handling = m.handling
  /-- Behind the outermost invocation both are clear. -/
  clear_outside : ∀ sig details rest m', m.code = .handle sig details :: rest → Returns rest m m' →
    (¬∃ i ∈ rest, i.isLogRest) → (¬∃ i ∈ rest, i.isRelease) →
    m'.logging = false ∧ m'.handling = false
  /-- An invocation runs the callback if there is one, unless a log call is in progress or an
  invocation around it has a callback and a backtrace under way. -/
  runs_callback_iff : ∀ sig details rest m', m.code = .handle sig details :: rest →
    Returns rest m m' →
    (RunsCallback sig details rest m m' ↔
      m.callback.isSome ∧ (¬∃ i ∈ rest, i.isLogRest) ∧ ¬∃ i ∈ rest, i.isRelease)

variable {m₀ m m' : CrashMachine} {code rest : List Instruction}

theorem Quiet.followsCode (h : m.Quiet) : m.FollowsCode :=
  ⟨.quiet, by rw [h.hcode]; rfl, h.hlogging, h.hhandling⟩

theorem FollowsCode.installOnce (h : m.FollowsCode) : m.installOnce.2.FollowsCode := by
  have hfold : ∀ (sigs : List Signal) (m : CrashMachine), m.FollowsCode →
      (sigs.foldl intercept m).FollowsCode := by
    intro sigs
    induction sigs with
    | nil => exact fun _ h => h
    | cons sig sigs ih =>
      intro m h
      apply ih
      unfold intercept
      apply FollowsCode.setAction
      exact h
  unfold CrashMachine.installOnce
  split
  · exact h
  · exact hfold _ _ h

theorem FollowsCode.next (h : m.FollowsCode) (hm : m.Next m') : m'.FollowsCode := by
  cases hm with
  | arrive sig payload => exact h.post sig payload
  | compute => exact h
  | step hm => exact h.step hm
  | @start i hrest hi =>
    obtain ⟨mode, hmode, hlogging, hhandling⟩ := h
    refine ⟨mode, ?_, hlogging, hhandling⟩
    rw [hrest] at hmode
    cases hmode
    change codeMode (i :: m.code) = _
    rw [hrest]
    cases hi <;> rfl
  | install p => exact h.installOnce
  | setCallback p c =>
    unfold CrashMachine.setCallback
    split <;> exact h
  | resetCallback => exact h
  | setAction sig a => exact h.setAction sig a
  | setMask => exact h

theorem FollowsCode.reaches (h : m.FollowsCode) (hm : m.Reaches m') : m'.FollowsCode := by
  induction hm with
  | refl => exact h
  | tail _ hnext ih => exact ih.next hnext

theorem RunsAbove.reaches (h : RunsAbove rest m m') : m.Reaches m' :=
  Relation.ReflTransGen.mono (fun _ _ hnext => hnext.2) _ _ h

theorem code_post (sig : Signal) (payload : ByteArray) : (m.post sig payload).code = m.code := by
  unfold post
  split <;> rfl

theorem callback_post (sig : Signal) (payload : ByteArray) :
    (m.post sig payload).callback = m.callback := by
  unfold post
  split <;> rfl

theorem code_setAction (sig : Signal) (a : SignalAction) : (m.setAction sig a).code = m.code := by
  unfold setAction
  split <;> rfl

theorem callback_setAction (sig : Signal) (a : SignalAction) :
    (m.setAction sig a).callback = m.callback := by
  unfold setAction
  split <;> rfl

theorem execute_spec (m : CrashMachine) (i : Instruction) :
    (∃ pushed, (m.execute i).code = pushed ++ m.code) ∧ (m.execute i).callback = m.callback := by
  cases i with
  | format line pieces =>
    match pieces with
    | [] | .text _ :: _ | .raising _ _ :: _ => exact ⟨⟨_, rfl⟩, rfl⟩
  | handle | runCallback =>
    rw [execute]
    split
    · exact ⟨⟨[], rfl⟩, rfl⟩
    · exact ⟨⟨_, rfl⟩, rfl⟩
  | claim =>
    rw [execute]
    split
    · exact ⟨⟨_, rfl⟩, rfl⟩
    · exact ⟨⟨_, rfl⟩, rfl⟩
  | forward =>
    rw [execute]
    split
    · exact ⟨⟨_, rfl⟩, rfl⟩
    · exact ⟨⟨[], rfl⟩, rfl⟩
    · exact ⟨⟨_, rfl⟩, rfl⟩
    · exact ⟨⟨_, rfl⟩, rfl⟩
    · exact ⟨⟨_, rfl⟩, rfl⟩
  | callDetailed =>
    rw [execute]
    split <;> exact ⟨⟨_, rfl⟩, rfl⟩
  | log | dumpBacktrace | callPlain => exact ⟨⟨_, rfl⟩, rfl⟩
  | endLog | endCallback | release | endHandler | restoreMask => exact ⟨⟨[], rfl⟩, rfl⟩
  | restoreDefault sig => exact ⟨⟨[], code_setAction _ _⟩, callback_setAction _ _⟩
  | raise sig => exact ⟨⟨[], code_post _ _⟩, callback_post _ _⟩
  | raiseUpTo sig limit =>
    rw [execute]
    split
    · exact ⟨⟨[], code_post _ _⟩, callback_post _ _⟩
    · exact ⟨⟨[], rfl⟩, rfl⟩

theorem deliver_spec (m : CrashMachine) (sig : Signal) :
    (∃ pushed, (m.deliver sig).code = pushed ++ m.code) ∧
      (m.deliver sig).callback = m.callback := by
  obtain ⟨d, hd⟩ := (m.actions sig).exists_has
  rw [deliver_of_has hd]
  cases d with
  | byDefault | ignored => exact ⟨⟨[], rfl⟩, rfl⟩
  | plain | detailed => exact ⟨⟨[_, _], rfl⟩, rfl⟩

theorem Next.cases_busy {i : Instruction} (hcode : m.code = i :: code) (h : m.Next m') :
    (∃ sig payload, m' = m.post sig payload) ∨ (∃ registers, m' = { m with registers }) ∨
      (∃ sig, m.killedBy = none ∧ m.deliverable = some sig ∧ m' = m.deliver sig) ∨
      m.killedBy = none ∧ m.deliverable = none ∧ m' = { m with code }.execute i := by
  have hbusy : m.code ≠ [] := by simp [hcode]
  cases h with
  | arrive sig payload => exact .inl ⟨sig, payload, rfl⟩
  | compute registers => exact .inr (.inl ⟨registers, rfl⟩)
  | step hstep =>
    unfold CrashMachine.step at hstep
    split at hstep
    · cases hstep
    · next hlive =>
      rw [Bool.not_eq_true, Option.isSome_eq_false_iff, Option.isNone_iff_eq_none] at hlive
      split at hstep
      · next sig hsig =>
        cases hstep
        exact .inr (.inr (.inl ⟨sig, hlive, hsig, rfl⟩))
      · next hnone =>
        rw [hcode] at hstep
        cases hstep
        exact .inr (.inr (.inr ⟨hlive, hnone, rfl⟩))
  | start hrest | install _ hrest | setCallback _ _ hrest | resetCallback hrest
  | setAction _ _ hrest | setMask _ hrest => exact absurd hrest hbusy

theorem Next.cases_code {i : Instruction} (hcode : m.code = i :: code) (h : m.Next m') :
    m'.callback = m.callback ∧
      ((∃ pushed, m'.code = pushed ++ i :: code) ∨
        m.killedBy = none ∧ m.deliverable = none ∧ m' = { m with code }.execute i) := by
  obtain ⟨sig, payload, rfl⟩ | ⟨registers, rfl⟩ | ⟨sig, -, -, rfl⟩ | ⟨hlive, hnone, rfl⟩ :=
    h.cases_busy hcode
  · exact ⟨callback_post sig payload, .inl ⟨[], (code_post sig payload).trans hcode⟩⟩
  · exact ⟨rfl, .inl ⟨[], hcode⟩⟩
  · obtain ⟨⟨pushed, hpushed⟩, hcallback⟩ := m.deliver_spec sig
    exact ⟨hcallback, .inl ⟨pushed, hcode ▸ hpushed⟩⟩
  · exact ⟨(execute_spec _ i).2, .inr ⟨hlive, hnone, rfl⟩⟩

theorem Next.keeps_behind {front : List Instruction} {i : Instruction}
    (hcode : m.code = i :: (front ++ rest)) (h : m.Next m') :
    ∃ front', m'.code = front' ++ rest := by
  obtain ⟨-, ⟨pushed, hpushed⟩ | ⟨-, -, rfl⟩⟩ := h.cases_code hcode
  · exact ⟨pushed ++ i :: front, by rw [hpushed, List.append_assoc, List.cons_append]⟩
  · obtain ⟨⟨pushed, hpushed⟩, -⟩ := execute_spec { m with code := front ++ rest } i
    exact ⟨pushed ++ front, by rw [hpushed, List.append_assoc]⟩

theorem RunsAbove.callback_eq (h : RunsAbove rest m m') : m'.callback = m.callback := by
  induction h with
  | refl => rfl
  | tail _ hnext ih =>
    obtain ⟨⟨i, code, hcode⟩, hnext⟩ := hnext
    exact (hnext.cases_code hcode).1.trans ih

/-- On its way to the return an invocation comes to each instruction that it has to do: it is done
with all that stood in front of it, and carries it out. -/
theorem RunsAbove.comes_to (hto : RunsAbove rest m₀ m) (h : RunsAbove rest m m')
    (hm' : m'.code = rest) (front back : List Instruction) (i : Instruction)
    (hm : m.code = front ++ i :: (back ++ rest)) :
    ∃ m₁ m₂, RunsAbove rest m₀ m₁ ∧ m₁.code = i :: (back ++ rest) ∧
      m₁.killedBy = none ∧ m₁.deliverable = none ∧
      m₂ = { m₁ with code := back ++ rest }.execute i ∧ RunsAbove rest m₀ m₂ ∧
      RunsAbove rest m₂ m' := by
  -- By induction on the run: what stands in front of the instruction changes from step to step.
  induction h using Relation.ReflTransGen.head_induction_on generalizing front with
  | refl =>
    have hlength := congrArg List.length (hm.symm.trans hm')
    simp only [List.length_append, List.length_cons] at hlength
    omega
  | @head m n hnext hrun ih =>
    have hton : RunsAbove rest m₀ n := hto.tail hnext
    cases front with
    | nil =>
      obtain ⟨-, ⟨pushed, hpushed⟩ | ⟨hlive, hnone, rfl⟩⟩ := hnext.2.cases_code hm
      · exact ih hton pushed hpushed
      · exact ⟨m, _, hto, hm, hlive, hnone, rfl, hton, hrun⟩
    | cons j front =>
      obtain ⟨front', hfront'⟩ := hnext.2.keeps_behind hm
      exact ih hton front' hfront'

theorem codeMode_of_callbackOnwards {actions : Callback} {sig : Signal}
    {details : SignalDetails} {mode : CrashMode}
    (h : codeMode (callbackOnwards actions sig details ++ rest) = some mode) :
    codeMode rest = some .quiet := by
  rw [callbackOnwards, List.append_assoc, codeMode_append] at h
  obtain ⟨behind, h, -⟩ := Option.bind_eq_some_iff.mp h
  rw [codeMode_append] at h
  obtain ⟨behind, hrest, h⟩ := Option.bind_eq_some_iff.mp h
  simp only [modeBefore_cons, modeBefore_nil, Option.bind_some, Option.bind_eq_some_iff] at h
  obtain ⟨behind₁, ⟨behind₂, ⟨behind₃, hforward, hrelease⟩, -⟩, -⟩ := h
  obtain ⟨-, hforward⟩ := Option.ite_none_left_eq_some.mp hforward
  obtain ⟨rfl, -⟩ := Option.ite_none_right_eq_some.mp hrelease
  cases hforward
  exact hrest

/-- An invocation that is not held up comes to run the callback. -/
theorem FollowsCode.runsCallback {sig : Signal} {details : SignalDetails} {actions : Callback}
    (h : m.FollowsCode) (hcode : m.code = .handle sig details :: rest)
    (hquiet : codeMode rest = some .quiet) (hcallback : m.callback = some actions)
    (hreturns : Returns rest m m') : RunsCallback sig details rest m m' := by
  obtain ⟨hrun, hrest⟩ := hreturns
  have hflags : ∀ {m₁ : CrashMachine} {i}, RunsAbove rest m m₁ → m₁.code = i :: rest →
      i.before .quiet = some .quiet → m₁.logging = false ∧ m₁.handling = false := by
    intro m₁ i hto hm₁ hi
    obtain ⟨mode, hmode, hlogging, hhandling⟩ := h.reaches hto.reaches
    rw [hm₁, codeMode_cons, hquiet] at hmode
    cases hi.symm.trans hmode
    exact ⟨hlogging, hhandling⟩
  -- It comes to its own first instruction, from there to the claim, and from there to the callback;
  -- what signals do in between leaves the flags as they are at each of these.
  obtain ⟨m₁, n₁, hto₁, hcode₁, -, -, hn₁, hon₁, hrun₁⟩ :=
    RunsAbove.comes_to .refl hrun hrest [] [] _ hcode
  rw [execute, if_neg (by simp [(hflags hto₁ hcode₁ rfl).1])] at hn₁
  obtain ⟨m₂, n₂, hto₂, hcode₂, -, -, hn₂, hon₂, hrun₂⟩ :=
    hon₁.comes_to hrun₁ hrest [_] [] (.claim sig details) (by rw [hn₁]; rfl)
  rw [execute, if_neg (by simp [(hflags hto₂ hcode₂ rfl).2])] at hn₂
  obtain ⟨m₃, n₃, hto₃, -, -, -, hn₃, hon₃, hrun₃⟩ :=
    hon₂.comes_to hrun₂ hrest [] [.dumpBacktrace, .release, .forward sig details] .runCallback
      (by rw [hn₂]; rfl)
  have hcallback₃ : m₃.callback = some actions := hto₃.callback_eq.trans hcallback
  simp only [execute, hcallback₃] at hn₃
  refine ⟨n₃, actions, hon₃, hon₃.callback_eq.trans hcallback, ?_, hrun₃⟩
  rw [hn₃]
  simp [callbackOnwards, doFirst]

theorem deliverable_eq_none_iff : m.deliverable = none ↔ ∀ sig ∈ m.pending, sig ∈ m.blocked := by
  unfold deliverable
  rw [List.min?_eq_none_iff, List.filter_eq_nil_iff]
  simp

theorem step_eq_execute {i : Instruction} (hlive : m.killedBy = none)
    (hnone : m.deliverable = none) (hcode : m.code = i :: code) :
    m.step = some ({ m with code }.execute i) := by
  simp [step, hlive, hnone, hcode]

theorem steps_succ_of_step {n : Nat} (h : m.step = some m') : steps (n + 1) m = steps n m' := by
  simp [steps, h]

/-- A signal that is delivered during a log call is gone four steps later, and that is all. -/
theorem steps_delivered_while_logging {sig : Signal} (hlogging : m.logging = true)
    (hlive : m.killedBy = none) (hsig : m.deliverable = some sig)
    (hcrash : (m.actions sig).Has (.detailed crashHandler))
    (hnone : (m.take sig).deliverable = none) : steps 4 m = m.take sig := by
  let entered (code : List Instruction) : CrashMachine :=
    { m.take sig with blocked := sig :: m.blocked, code }
  let details := m.details sig
  have hdeliver : m.step =
      some (entered
        (.callDetailed crashHandler sig details :: .restoreMask m.blocked :: m.code)) := by
    rw [show m.step = some (m.deliver sig) by simp [step, hlive, hsig], deliver_of_has hcrash]
    rfl
  have hstep : ∀ i code, (entered (i :: code)).step = some ((entered code).execute i) := by
    intro i code
    refine step_eq_execute hlive (deliverable_eq_none_iff.mpr fun other hother => ?_) rfl
    exact List.mem_cons_of_mem _ (deliverable_eq_none_iff.mp hnone other hother)
  have hhandle : ∀ code, (entered (.callDetailed crashHandler sig details :: code)).step =
      some (entered (.handle sig details :: code)) := by
    intro code
    rw [hstep, execute, if_pos rfl]
    rfl
  have hignored : ∀ code, (entered (.handle sig details :: code)).step = some (entered code) := by
    intro code
    rw [hstep, execute, if_pos (show (entered code).logging = true from hlogging)]
  calc steps 4 m
    _ = steps 3 _ := steps_succ_of_step hdeliver
    _ = steps 2 _ := steps_succ_of_step (hhandle _)
    _ = steps 1 _ := steps_succ_of_step (hignored _)
    _ = m.take sig := steps_succ_of_step (hstep _ _)

/-- Left to itself, a program has returned when its code is down to the rest for the first time. -/
theorem Returns.of_steps {n : Nat} (front : List Instruction) (hm : m.code = front ++ rest)
    (hlong : ∀ k < n, rest.length < (steps k m).code.length)
    (hend : (steps n m).code.length = rest.length) : Returns rest m (steps n m) := by
  induction n generalizing m front with
  | zero =>
    change m.code.length = _ at hend
    rw [hm, List.length_append, Nat.add_eq_right, List.length_eq_zero_iff] at hend
    exact ⟨.refl, by rw [steps, hm, hend, List.nil_append]⟩
  | succ n ih =>
    have hfirst : rest.length < m.code.length := hlong 0 n.succ_pos
    obtain - | ⟨i, front⟩ := front
    · simp [hm] at hfirst
    cases hstep : m.step with
    | none =>
      simp only [steps, hstep] at hend
      omega
    | some m₁ =>
      rw [steps_succ_of_step hstep] at hend ⊢
      obtain ⟨front', hm₁⟩ := (Next.step hstep).keeps_behind hm
      obtain ⟨hrun, hrest⟩ := ih front' hm₁
        (fun k hk => steps_succ_of_step hstep ▸ hlong (k + 1) (Nat.succ_lt_succ hk)) hend
      exact ⟨hrun.head ⟨⟨i, front, hm⟩, .step hstep⟩, hrest⟩

theorem reaches_steps (k : Nat) (m : CrashMachine) : m.Reaches (steps k m) := by
  induction k generalizing m with
  | zero => exact .refl
  | succ k ih =>
    cases hstep : m.step with
    | none => simpa [steps, hstep] using .refl
    | some n =>
      rw [steps_succ_of_step hstep]
      exact .head (.step hstep) (ih n)

theorem codeMode_handle (sig : Signal) (details : SignalDetails) :
    codeMode (.handle sig details :: rest) = codeMode rest := Option.bind_fun_some _

theorem FollowsCode.reentrant (h : m.FollowsCode) : m.Reentrant := by
  obtain ⟨mode, hmode, hlogging, hhandling⟩ := id h
  obtain ⟨hlogs, hclaims⟩ := flags_of_codeMode hmode
  refine ⟨?_, hlogging ▸ hlogs, hhandling ▸ hclaims, ?_, ?_, ?_, ?_, ?_⟩
  · rw [(counts_of_codeMode hmode).2.1]
    exact Bool.toNat_le _
  · intro sig hlogging hlive hsig hcrash hnone
    exact steps_delivered_while_logging hlogging hlive hsig hcrash hnone
  · intro sig details rest hcode hlog hlive hnone
    rw [hcode, codeMode_handle] at hmode
    rw [step_eq_execute hlive hnone hcode, execute, if_pos]
    exact hlogging.trans ((flags_of_codeMode hmode).1.mpr hlog)
  · intro sig details rest m' hcode hreturns
    obtain ⟨hrun, hrest⟩ := hreturns
    have hbehind : { m with code := rest }.FollowsCode :=
      ⟨mode, by rw [← hmode, hcode, codeMode_handle], hlogging, hhandling⟩
    exact hbehind.flags_eq (h.reaches hrun.reaches) hrest.symm
  · intro sig details rest m' hcode hreturns hlogs hclaims
    obtain ⟨hrun, hrest⟩ := hreturns
    obtain ⟨mode, hmode, hlogging, hhandling⟩ := h.reaches hrun.reaches
    rw [hrest] at hmode
    rw [← (flags_of_codeMode hmode).1, ← hlogging, Bool.not_eq_true] at hlogs
    rw [← (flags_of_codeMode hmode).2, ← hhandling, Bool.not_eq_true] at hclaims
    exact ⟨hlogs, hclaims⟩
  · intro sig details rest m' hcode hreturns
    rw [hcode, codeMode_handle] at hmode
    obtain ⟨hlogs, hclaims⟩ := flags_of_codeMode hmode
    rw [← hlogs, ← hclaims, Bool.not_eq_true, Bool.not_eq_true]
    constructor
    · rintro ⟨m₁, actions, hto, hcallback, hcode₁, -⟩
      obtain ⟨mode₁, hmode₁, -⟩ := h.reaches hto.reaches
      rw [hcode₁] at hmode₁
      cases hmode.symm.trans (codeMode_of_callbackOnwards hmode₁)
      rw [← hto.callback_eq, hcallback]
      exact ⟨rfl, rfl, rfl⟩
    · rintro ⟨hcallback, hquiet⟩
      obtain ⟨actions, hcallback⟩ := Option.isSome_iff_exists.mp hcallback
      obtain rfl := CrashMode.eq_quiet hquiet.1 hquiet.2
      exact h.runsCallback hcode hmode hcallback hreturns

/-- Whatever signals arrive in whatever handlers, the crash handler stays safe to enter again. -/
theorem reentrant_of_reaches (h₀ : m₀.Quiet) (h : m₀.Reaches m) : m.Reentrant :=
  (h₀.followsCode.reaches h).reentrant

def raisingInCallback : CrashMachine :=
  { initial with
    actions := fun _ => .crash
    saved := fun _ => .store .ignored
    callback := some [.raise 1 1]
    frames := ["frame"] }

/-- The handler of the termination signal runs the callback, that of the signal raised there comes
and goes, and behind both the flags are clear. -/
theorem raisingInCallback_reentrant :
    let details : SignalDetails := ⟨some ⟨15, ⟨#[42]⟩⟩, some ⟨.empty, []⟩⟩
    let entered := steps 2 (raisingInCallback.post 15 ⟨#[42]⟩)
    let returned := steps 34 entered
    raisingInCallback.Quiet ∧ raisingInCallback.Reaches entered ∧
      Returns [.restoreMask []] entered returned ∧
      RunsCallback 15 details [.restoreMask []] entered returned ∧
      returned.logging = false ∧ returned.handling = false := by
  intro details entered returned
  have hquiet : raisingInCallback.Quiet := ⟨rfl, rfl, rfl⟩
  have hreaches : raisingInCallback.Reaches entered := .head (.arrive _ 15 _) (reaches_steps 2 _)
  have hcode : entered.code = [.handle 15 details] ++ [.restoreMask []] := rfl
  have hreturns : Returns [.restoreMask []] entered returned := by
    refine Returns.of_steps [.handle 15 details] hcode ?_ ?_ <;> decide +kernel
  have hreentrant := reentrant_of_reaches hquiet hreaches
  refine ⟨hquiet, hreaches, hreturns, ?_, hreentrant.clear_outside 15 details _ _ hcode hreturns
    (by decide) (by decide)⟩
  exact (hreentrant.runs_callback_iff 15 details _ _ hcode hreturns).mpr
    ⟨by decide +kernel, by decide, by decide⟩

end CrashMachine

end TraceCapture
