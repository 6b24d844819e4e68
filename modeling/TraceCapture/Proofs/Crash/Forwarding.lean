import TraceCapture.Proofs.Crash.Effects

set_option autoImplicit false

/-!
# Forwarding to what a signal did before

An invocation of the crash handler is interrupted by other signals and calls other handlers, all of
which forward signals themselves. What it carries out on its own is what is left of its run without
these. As every instruction leads to the same forwarding as what is put in its place, that of the
first instruction is the one of the whole invocation.
-/

namespace TraceCapture

theorem Signal.of_canIntercept {sig : Signal} (h : sig.CanIntercept) :
    sig.isValid = true ∧ sig.isCatchable = true ∧ sig.isFatal = true := by
  have hall : ∀ n < 16, CanIntercept (Int.ofNat n) → isValid (Int.ofNat n) = true ∧
      isCatchable (Int.ofNat n) = true ∧ isFatal (Int.ofNat n) = true := by
    decide
  obtain ⟨n, rfl⟩ := Int.eq_ofNat_of_zero_le (Int.le_of_lt h.1)
  exact hall n (Int.ofNat_lt.mp h.2.1) h

def Disposition.call? (sig : Signal) (details : SignalDetails) : Disposition → Option CrashEvent
  | .byDefault | .ignored => none
  | .plain handler => some (.plainCalled handler sig)
  | .detailed handler =>
      if handler = crashHandler then none else some (.detailedCalled handler sig details)

namespace CrashMachine

/-- The instructions that code in front of the given rest carries out itself, in their order. Those
of handlers that interrupt it or that it calls are left out. -/
inductive CarriesOut (rest : List Instruction) :
    CrashMachine → List Instruction → CrashMachine → Prop
  | refl {m : CrashMachine} : CarriesOut rest m [] m
  | arrive {m m' : CrashMachine} {is : List Instruction} (sig : Signal) (payload : ByteArray)
      (h : CarriesOut rest (m.post sig payload) is m') : CarriesOut rest m is m'
  | compute {m m' : CrashMachine} {is : List Instruction} (registers : ByteArray)
      (h : CarriesOut rest { m with registers } is m') : CarriesOut rest m is m'
  | interrupt {m n m' : CrashMachine} {is : List Instruction} {sig : Signal}
      (hlive : m.killedBy = none) (hsig : m.deliverable = some sig)
      (hreturns : Returns m.code (m.deliver sig) n) (h : CarriesOut rest n is m') :
      CarriesOut rest m is m'
  | execute {m m' : CrashMachine} {i : Instruction} {code is : List Instruction}
      (hlive : m.killedBy = none) (hnone : m.deliverable = none)
      (hcode : m.code = i :: (code ++ rest)) (hi : i.isCall = false)
      (h : CarriesOut rest ({ m with code := code ++ rest }.execute i) is m') :
      CarriesOut rest m (i :: is) m'
  | call {m n m' : CrashMachine} {i : Instruction} {code is : List Instruction}
      (hlive : m.killedBy = none) (hnone : m.deliverable = none)
      (hcode : m.code = i :: (code ++ rest)) (hi : i.isCall = true)
      (hreturns : Returns (code ++ rest) ({ m with code := code ++ rest }.execute i) n)
      (h : CarriesOut rest n is m') : CarriesOut rest m (i :: is) m'

variable {m₀ m m' m'' n : CrashMachine} {sig other : Signal} {details : SignalDetails}
  {i : Instruction} {code front rest is : List Instruction}

/-- A run that returns can be told by what the code in front of the rest carries out itself. -/
theorem RunsAbove.carriesOut (h : RunsAbove rest m m') (hm' : m'.code = rest) :
    (∃ is, CarriesOut rest m is m') ∧ ∀ front back, m.code = front ++ (back ++ rest) →
      ∃ n is, Returns (back ++ rest) m n ∧ CarriesOut rest n is m' := by
  -- By induction on the run. The second part cuts off the handlers: it is about the moment when
  -- what stands in front of some code is done with.
  induction h using Relation.ReflTransGen.head_induction_on with
  | refl =>
    refine ⟨⟨[], .refl⟩, fun front back hm => ⟨m', [], ⟨.refl, ?_⟩, .refl⟩⟩
    rw [hm', ← List.append_assoc, List.self_eq_append_left, List.append_eq_nil_iff] at hm
    rw [hm', hm.2, List.nil_append]
  | @head m n hnext hrun ih =>
    obtain ⟨⟨is, hn⟩, hbehind⟩ := ih
    obtain ⟨⟨i, code, hcode⟩, hnext⟩ := hnext
    have hfirst : ∃ is, CarriesOut rest m is m' := by
      obtain ⟨sig, payload, rfl⟩ | ⟨registers, rfl⟩ | ⟨sig, hlive, hsig, rfl⟩ |
        ⟨hlive, hnone, rfl⟩ := hnext.cases_busy hcode
      · exact ⟨is, hn.arrive sig payload⟩
      · exact ⟨is, hn.compute registers⟩
      · obtain ⟨⟨pushed, hpushed⟩, -⟩ := m.deliver_spec sig
        obtain ⟨n, is, hreturns, hn⟩ := hbehind pushed (i :: code) (by rw [hpushed, hcode]; rfl)
        rw [List.cons_append, ← hcode] at hreturns
        exact ⟨is, hn.interrupt hlive hsig hreturns⟩
      · cases hi : i.isCall with
        | false => exact ⟨i :: is, hn.execute hlive hnone hcode hi⟩
        | true =>
          obtain ⟨⟨pushed, hpushed⟩, -⟩ := execute_spec { m with code := code ++ rest } i
          obtain ⟨n, is, hreturns, hn⟩ := hbehind pushed code hpushed
          exact ⟨i :: is, hn.call hlive hnone hcode hi hreturns⟩
    refine ⟨hfirst, fun front back hm => ?_⟩
    cases front with
    | nil =>
      obtain ⟨is, hfirst⟩ := hfirst
      exact ⟨m, is, ⟨.refl, hm⟩, hfirst⟩
    | cons j front =>
      obtain ⟨front', hfront'⟩ := hnext.keeps_behind hm
      obtain ⟨n, is, ⟨hrun, hcode⟩, hn⟩ := hbehind front' back hfront'
      exact ⟨n, is, ⟨hrun.head ⟨⟨j, front, hm⟩, hnext⟩, hcode⟩, hn⟩

theorem saved_of_interrupt (hcode : m.code = code)
    (hreturns : Returns code (m.deliver sig) n) : n.saved = m.saved := by
  obtain ⟨pushed, hdelivery⟩ := m.exists_delivery sig
  exact (hreturns.keeps_mask (hcode ▸ hdelivery.code_eq)).1.trans hdelivery.saved_eq

/-- Code that does not enter the crash handler forwards itself what its instructions lead to. -/
theorem CarriesOut.forwarding_eq (h : CarriesOut rest m is m') (hm' : m'.code = rest)
    (hm : m.code = front ++ rest) (hfront : ∀ i ∈ front, i.isHandle = false) :
    is.filter Instruction.isForwarding = front.flatMap (Instruction.leadsTo m.saved) := by
  induction h generalizing front with
  | refl =>
    rw [hm', List.self_eq_append_left] at hm
    rw [hm]
    rfl
  | @arrive m _ _ sig payload _ ih =>
    rw [ih hm' ((code_post sig payload).trans hm) hfront, (m.post_keeps sig payload).1]
  | compute registers _ ih => exact ih hm' hm hfront
  | interrupt _ _ hreturns _ ih =>
    rw [ih hm' (hreturns.2.trans hm) hfront, saved_of_interrupt rfl hreturns]
  | @execute m _ i code is _ _ hcode hi _ ih =>
    obtain rfl : front = i :: code := List.append_cancel_right (hm.symm.trans hcode)
    obtain ⟨pushed, heffect⟩ := exists_effect { m with code := code ++ rest } i
    obtain ⟨hpushed, hleads⟩ := heffect.leadsTo_eq hi (hfront i List.mem_cons_self)
    have hcode' : ({ m with code := code ++ rest }.execute i).code = (pushed ++ code) ++ rest := by
      rw [heffect.code_eq, List.append_assoc]
    have htail := ih hm' hcode' fun j hj => (List.mem_append.mp hj).elim (hpushed j)
      fun hj => hfront j (List.mem_cons_of_mem i hj)
    rw [List.flatMap_cons, ← hleads, ← List.singleton_append, List.filter_append, htail,
      List.flatMap_append, heffect.saved_eq, List.append_assoc]
  | @call m n _ i code is _ _ hcode hi hreturns _ ih =>
    obtain rfl : front = i :: code := List.append_cancel_right (hm.symm.trans hcode)
    obtain ⟨pushed, heffect⟩ := exists_effect { m with code := code ++ rest } i
    have hsaved := (hreturns.keeps_mask heffect.code_eq).1.trans heffect.saved_eq
    have htail := ih hm' hreturns.2 fun j hj => hfront j (List.mem_cons_of_mem i hj)
    rw [hsaved] at htail
    rw [List.flatMap_cons, ← htail]
    cases i with
    | callPlain | callDetailed => rfl
    | _ => cases hi

/-- An invocation of the crash handler that is not in a log call forwards its signal. -/
theorem CarriesOut.of_handle (h : CarriesOut rest m is m') (hm' : m'.code = rest)
    (hm : m.code = .handle sig details :: rest) (hfollows : m.FollowsCode)
    (hlogging : m.logging = false) : is.filter Instruction.isForwarding =
      (Instruction.forward sig details).leadsTo m.saved := by
  induction h with
  | refl => simp [hm'] at hm
  | @arrive m _ _ sig payload _ ih =>
    have hpost := hfollows.post sig payload
    rw [ih hm' ((code_post sig payload).trans hm) hpost, (m.post_keeps sig payload).1]
    exact (hfollows.flags_eq hpost (code_post sig payload).symm).1.trans hlogging
  | compute registers _ ih => exact ih hm' hm hfollows hlogging
  | @interrupt m n _ _ sig _ _ hreturns _ ih =>
    have hn : n.FollowsCode := (hfollows.deliver sig).reaches hreturns.1.reaches
    rw [ih hm' (hreturns.2.trans hm) hn, saved_of_interrupt rfl hreturns]
    exact (hfollows.flags_eq hn hreturns.2.symm).1.trans hlogging
  | @execute m _ i code is _ _ hcode hi h ih =>
    obtain ⟨rfl, hrest⟩ := List.cons.inj (hm.symm.trans hcode)
    rw [List.self_eq_append_left] at hrest
    subst hrest
    rw [List.nil_append, CrashMachine.execute, if_neg (by simp [hlogging])] at h
    have htail := h.forwarding_eq hm'
      (rfl : _ = [message s!"apicap: warning: caught signal {sig}\n", .claim sig details] ++ rest)
      (by simp [message])
    exact htail.trans (List.append_nil _)
  | call _ _ hcode hi =>
    obtain ⟨rfl, -⟩ := List.cons.inj (hm.symm.trans hcode)
    cases hi

theorem RunsAbove.eq_of_code (h : RunsAbove rest m m') (hm : m.code = rest) : m' = m := by
  obtain heq | ⟨n, ⟨⟨i, code, hcode⟩, -⟩, -⟩ := h.cases_head
  · exact heq.symm
  · have hnil : i :: code = [] := List.self_eq_append_left.mp (hm.symm.trans hcode)
    cases hnil

/-- An invocation that is not in a log call comes to the forwarding, with or without a callback. -/
theorem RunsAbove.comes_to_forward (h : RunsAbove rest m m') (hm' : m'.code = rest)
    (hm : m.code = .handle sig details :: rest) (hfollows : m.FollowsCode)
    (hlogging : m.logging = false) : ∃ n, RunsAbove rest m n ∧
      n.code = .forward sig details :: rest ∧
      RunsAbove rest m ({ n with code := rest }.execute (.forward sig details)) ∧
      RunsAbove rest ({ n with code := rest }.execute (.forward sig details)) m' := by
  obtain ⟨m₁, n₁, hto₁, hcode₁, -, -, hn₁, hon₁, hrun₁⟩ :=
    RunsAbove.comes_to .refl h hm' [] [] _ hm
  have hlogging₁ : m₁.logging = false :=
    (hfollows.flags_eq (hfollows.reaches hto₁.reaches) (hm.trans hcode₁.symm)).1.trans hlogging
  rw [execute, if_neg (by simp [hlogging₁])] at hn₁
  obtain ⟨m₂, n₂, -, -, -, -, hn₂, hon₂, hrun₂⟩ :=
    hon₁.comes_to hrun₁ hm' [_] [] (.claim sig details) (by rw [hn₁]; rfl)
  have hfront : ∃ front, n₂.code = front ++ .forward sig details :: rest := by
    rw [hn₂, execute]
    split
    · exact ⟨[_], rfl⟩
    · exact ⟨[_, _, _], rfl⟩
  obtain ⟨front, hfront⟩ := hfront
  obtain ⟨m₃, n₃, hto₃, hcode₃, -, -, rfl, hon₃, hrun₃⟩ :=
    hon₂.comes_to hrun₂ hm' front [] (.forward sig details) hfront
  exact ⟨m₃, hto₃, hcode₃, hon₃, hrun₃⟩

theorem post_of_isValid (m : CrashMachine) (payload : ByteArray) (h : sig.isValid = true) :
    ∃ pending payloads, m.post sig payload = { m with pending, payloads } ∧ sig ∈ pending ∧
      ∀ other ∈ pending, other = sig ∨ other ∈ m.pending := by
  unfold post
  split
  · exact ⟨_, _, rfl, List.mem_cons_self, fun _ hother => List.mem_cons.mp hother⟩
  · next hmem =>
    refine ⟨_, _, rfl, ?_, fun _ => .inr⟩
    simpa [h] using hmem

structure DefaultWaits (sig : Signal) (m : CrashMachine) : Prop where
  hlive : m.killedBy = none
  hblocked : ∀ other ∈ m.pending, other ∈ m.blocked
  hpending : sig ∈ m.pending
  hactions : m.actions sig = .byDefault

theorem RunsAbove.savedDisposition_eq (h : RunsAbove rest m m') (hm : m.code = front ++ rest)
    (hsig : sig.CanIntercept) : ({ m' with code := rest } : CrashMachine).savedDisposition sig =
      some (m.saved sig).load := by
  rw [savedDisposition, if_pos ⟨Int.le_of_lt hsig.1, hsig.2.1⟩, (h.keeps_mask hm).1]

theorem RunsAbove.exists_call {e : CrashEvent} (h : RunsAbove rest m m') (hm' : m'.code = rest)
    (hm : m.code = [.handle sig details] ++ rest) (hfollows : m.FollowsCode)
    (hlogging : m.logging = false) (hsig : sig.CanIntercept)
    (he : (m.saved sig).load.call? sig details = some e) : ∃ m₁ m₂, RunsAbove rest m m₁ ∧
      m₁.step = some m₂ ∧ m₂.trace = m₁.trace.push e ∧ RunsAbove rest m₂ m' := by
  obtain ⟨n, hto, -, hon, hrun⟩ := h.comes_to_forward hm' hm hfollows hlogging
  have hsaved := hto.savedDisposition_eq hm hsig
  cases hload : (m.saved sig).load with
  | byDefault | ignored => simp [hload, Disposition.call?] at he
  | plain handler =>
    rw [hload] at he hsaved
    cases he
    simp only [execute, hsaved] at hon hrun
    obtain ⟨m₁, m₂, hto₁, hcode, hlive, hnone, rfl, -, hrun₂⟩ :=
      hon.comes_to hrun hm' [] [] (.callPlain handler sig) rfl
    exact ⟨m₁, _, hto₁, step_eq_execute hlive hnone hcode, rfl, hrun₂⟩
  | detailed handler =>
    rw [hload] at he hsaved
    obtain ⟨hother, hcall⟩ := Option.ite_none_left_eq_some.mp he
    cases hcall
    simp only [execute, hsaved] at hon hrun
    obtain ⟨m₁, m₂, hto₁, hcode, hlive, hnone, rfl, -, hrun₂⟩ :=
      hon.comes_to hrun hm' [] [] (.callDetailed handler sig details) rfl
    refine ⟨m₁, _, hto₁, step_eq_execute hlive hnone hcode, ?_, hrun₂⟩
    rw [execute, if_neg hother]
    rfl

theorem defaultWaits_of_byDefault (h : RunsAbove rest m m') (hm' : m'.code = rest)
    (hm : m.code = [.handle sig details] ++ rest) (hfollows : m.FollowsCode)
    (hlogging : m.logging = false) (hsig : sig.CanIntercept) (hblocked : sig ∈ m.blocked)
    (hsaved : (m.saved sig).load = .byDefault) : DefaultWaits sig m' ∧ m'.blocked = m.blocked := by
  obtain ⟨hvalid, hcatchable, -⟩ := Signal.of_canIntercept hsig
  obtain ⟨n, hto, -, hon, hrun⟩ := h.comes_to_forward hm' hm hfollows hlogging
  have hsaved' : ({ n with code := rest } : CrashMachine).savedDisposition sig =
      some .byDefault := by
    rw [hto.savedDisposition_eq hm hsig, hsaved]
  simp only [execute, hsaved'] at hon hrun
  obtain ⟨m₁, n₁, -, -, -, -, hn₁, hon₁, hrun₁⟩ :=
    hon.comes_to hrun hm' [_] [.raise sig] (.restoreDefault sig) rfl
  have hcode₁ : n₁.code = [.raise sig] ++ rest := by
    rw [hn₁]
    exact code_setAction sig _
  have hactions₁ : n₁.actions sig = .byDefault := by
    rw [hn₁, execute, setAction, if_pos hcatchable]
    exact SignalAction.Table.set_self _ _ _
  have hblocked₁ : n₁.blocked = m.blocked :=
    hon₁.blocked_eq hm hcode₁ (by simp [Instruction.mask?]) (by simp [Instruction.mask?])
  obtain ⟨m₂, n₂, hto₂, hcode₂, hlive, hnone, hn₂, -, hrun₂⟩ :=
    RunsAbove.comes_to .refl hrun₁ hm' [] [] (.raise sig) hcode₁
  have hcode₂ : m₂.code = [.raise sig] ++ rest := hcode₂
  have hblocked₂ : m₂.blocked = n₁.blocked :=
    hto₂.blocked_eq hcode₁ hcode₂ (by simp [Instruction.mask?]) (by simp [Instruction.mask?])
  have halone : LeavesAlone sig n₁ [.raise sig] :=
    ⟨hblocked₁ ▸ hblocked, by simp [Instruction.mask?], by simp [Instruction.crashSignal?]⟩
  obtain ⟨-, -, -, hkeeps⟩ := halone.runsAbove hcode₁ hto₂
  obtain rfl : m' = n₂ := hrun₂.eq_of_code (hn₂ ▸ code_post sig m₂.ownPayload)
  obtain ⟨pending, payloads, hpost, hmem, hothers⟩ :=
    post_of_isValid { m₂ with code := rest } m₂.ownPayload hvalid
  obtain rfl : m' = { m₂ with code := rest, pending, payloads } := hn₂.trans hpost
  refine ⟨⟨hlive, fun other hother => ?_, hmem, hkeeps.actions_eq.trans hactions₁⟩,
    hblocked₂.trans hblocked₁⟩
  obtain rfl | hother := hothers other hother
  · exact hblocked₂ ▸ halone.hblocked
  · exact deliverable_eq_none_iff.mp hnone other hother

theorem deliverable_eq_some (hmem : sig ∈ m.pending) (hnot : sig ∉ m.blocked)
    (hothers : ∀ other ∈ m.pending, other ∈ sig :: m.blocked) : m.deliverable = some sig := by
  rw [deliverable, List.min?_eq_some_iff]
  refine ⟨by simp [hmem, hnot], fun other hother => ?_⟩
  obtain ⟨hother, hfree⟩ := List.mem_filter.mp hother
  obtain rfl | hblocked := List.mem_cons.mp (hothers other hother)
  · exact Int.le_refl other
  · simp [hblocked] at hfree

theorem step_eq_deliver (hlive : m.killedBy = none) (hsig : m.deliverable = some sig) :
    m.step = some (m.deliver sig) := by
  simp [step, hlive, hsig]

/-- The program is ended by the signal as soon as the mask is restored. -/
theorem DefaultWaits.killed {mask : List Signal} (h : DefaultWaits sig m)
    (hm : m.code = .restoreMask mask :: code) (hmask : m.blocked = sig :: mask)
    (hnot : sig ∉ mask) (hfatal : sig.isFatal = true) : (steps 2 m).killedBy = some sig := by
  have hstep : m.step = some { m with code, blocked := mask } :=
    step_eq_execute h.hlive (deliverable_eq_none_iff.mpr h.hblocked) hm
  have hsig : ({ m with code, blocked := mask } : CrashMachine).deliverable = some sig :=
    deliverable_eq_some h.hpending hnot (hmask ▸ h.hblocked)
  have hkilled : ({ m with code, blocked := mask }.deliver sig).killedBy = some sig := by
    simp [deliver, h.hactions, SignalAction.byDefault, hfatal]
  rw [steps_succ_of_step hstep, steps_succ_of_step (step_eq_deliver (by exact h.hlive) hsig)]
  exact hkilled

/-- Whatever arrives first: the code behind the mask does not go on before the default is taken. -/
theorem DefaultWaits.until_taken {mask : List Signal} (h : DefaultWaits sig m)
    (hm : m.code = .restoreMask mask :: code) (hrun : RunsAbove code m m') :
    sig ∈ m'.pending ∧ m'.actions sig = .byDefault ∧
      ((∃ front, m'.code = front ++ .restoreMask mask :: code ∧ LeavesAlone sig m' front) ∨
        m'.code = code ∧ m'.blocked = mask) := by
  induction hrun with
  | refl =>
    exact ⟨h.hpending, h.hactions, .inl ⟨[], hm, leavesAlone_nil (h.hblocked sig h.hpending)⟩⟩
  | @tail n m' _ hnext ih =>
    obtain ⟨hpending, hactions, ⟨front, hn, halone⟩ | ⟨hn, -⟩⟩ := ih
    · obtain ⟨-, hnext⟩ := hnext
      cases front with
      | nil =>
        obtain ⟨pushed, hm', halone', hkeeps⟩ | rfl := hnext.leavesAlone hn halone.hblocked
        · exact ⟨hkeeps.mem_pending hpending, hkeeps.actions_eq.trans hactions,
            .inl ⟨pushed, hm', halone'⟩⟩
        · exact ⟨hpending, hactions, .inr ⟨rfl, rfl⟩⟩
      | cons i front =>
        obtain ⟨front', hm', halone', hkeeps⟩ := halone.next hn hnext
        exact ⟨hkeeps.mem_pending hpending, hkeeps.actions_eq.trans hactions,
          .inl ⟨front', hm', halone'⟩⟩
    · obtain ⟨⟨i, front, hcode⟩, -⟩ := hnext
      have hnil : i :: front = [] := List.self_eq_append_left.mp (hn.symm.trans hcode)
      cases hnil

/-- What is still to do when the handler of a signal that is delivered returns. -/
def behind (m : CrashMachine) : List Instruction := .restoreMask m.blocked :: m.code

/-- The instructions that the invocation of the crash handler for a delivered signal carries out
itself on its way to its return. -/
def Invocation (m : CrashMachine) (sig : Signal) (is : List Instruction) (m' : CrashMachine) :
    Prop :=
  ∃ m₁, RunsAbove m.behind (m.deliver sig) m₁ ∧
    m₁.code = .handle sig (m.details sig) :: m.behind ∧ CarriesOut m.behind m₁ is m'

/-- What an invocation has done about a delivered signal when it returns. -/
structure Forwards (m : CrashMachine) (sig : Signal) (d : Disposition) (m' : CrashMachine) :
    Prop where
  exists_invocation : ∃ is, m.Invocation sig is m'
  /-- It forwards the signal once, to what that did before, and no other. -/
  forwarding_eq : ∀ is, m.Invocation sig is m' → is.filter Instruction.isForwarding =
    .forward sig (m.details sig) :: d.forwarding sig (m.details sig)
  /-- A handler is called with the details with which the signal was delivered. -/
  called : ∀ e, d.call? sig (m.details sig) = some e → ∃ m₁ m₂,
    RunsAbove m.behind (m.deliver sig) m₁ ∧ m₁.step = some m₂ ∧ m₂.trace = m₁.trace.push e ∧
      RunsAbove m.behind m₂ m'
  killed : d = .byDefault → (steps 2 m').killedBy = some sig
  /-- Also if other signals arrive first, what was interrupted does not go on before that. -/
  until_killed : d = .byDefault → ∀ m'', RunsAbove m.code m' m'' → sig ∈ m''.pending ∧
    m''.actions sig = .byDefault ∧ (m''.code = m.code → sig ∉ m''.blocked)

/-- What was stored for a signal is what the system told of it when it had this disposition. -/
def Remembers (m : CrashMachine) (sig : Signal) (d : Disposition) : Prop :=
  ∃ a : SignalAction, a.Has d ∧ m.saved sig = .store (.ofAction a)

theorem Remembers.load_eq {d : Disposition} (h : m.Remembers sig d) : (m.saved sig).load = d := by
  obtain ⟨a, ha, hsaved⟩ := h
  rw [hsaved, ha.load_store]

theorem Next.keeps_saved (h : m.Next m') (hinstalled : m.installed = true) :
    m'.installed = true ∧ m'.saved = m.saved := by
  cases h with
  | arrive sig payload =>
    exact ⟨(installed_post m sig payload).trans hinstalled, (m.post_keeps sig payload).1⟩
  | step hstep =>
    refine ⟨(step_registers hstep).2.trans hinstalled, ?_⟩
    obtain ⟨sig, -, rfl⟩ | ⟨i, code, -, rfl⟩ := step_cases hstep
    · obtain ⟨_, hdelivery⟩ := m.exists_delivery sig
      exact hdelivery.saved_eq
    · obtain ⟨_, heffect⟩ := exists_effect { m with code } i
      exact heffect.saved_eq
  | install p =>
    change m.installOnce.2.installed = true ∧ m.installOnce.2.saved = m.saved
    rw [installOnce, if_pos hinstalled]
    exact ⟨hinstalled, rfl⟩
  | setCallback p c =>
    unfold CrashMachine.setCallback
    split <;> exact ⟨hinstalled, rfl⟩
  | setAction sig a =>
    obtain ⟨hinstalled', hsaved, -⟩ := setAction_keeps m sig a
    exact ⟨hinstalled'.trans hinstalled, hsaved⟩
  | compute | start | resetCallback | setMask => exact ⟨hinstalled, rfl⟩

theorem Reaches.keeps_saved (h : m.Reaches m') (hinstalled : m.installed = true) :
    m'.installed = true ∧ m'.saved = m.saved := by
  induction h with
  | refl => exact ⟨hinstalled, rfl⟩
  | tail _ hnext ih =>
    obtain ⟨hinstalled', hsaved⟩ := ih
    obtain ⟨hinstalled'', hsaved'⟩ := hnext.keeps_saved hinstalled'
    exact ⟨hinstalled'', hsaved'.trans hsaved⟩

/-- After an installation it is known what the signals did before it. -/
theorem remembers_of_installOnce {before : CrashMachine} {d : Disposition}
    (hbefore : before.installed = false) (hm : before.installOnce.2.Reaches m)
    (hsig : sig.CanIntercept) (hd : (before.actions sig).Has d) : m.Remembers sig d := by
  obtain ⟨-, -, hinstalled, hsaved, -⟩ :=
    foldl_intercept Signal.nodup_intercepted { before with installed := true }
  have honce : before.installOnce.2 =
      Signal.intercepted.foldl intercept { before with installed := true } := by
    rw [installOnce, hbefore, if_neg Bool.false_ne_true]
  rw [honce] at hm
  refine ⟨before.actions sig, hd, ?_⟩
  rw [(hm.keeps_saved hinstalled).2]
  exact hsaved sig (List.contains_iff_mem.mp (Signal.isIntercepted_iff.mpr hsig))

theorem FollowsCode.entered (h : m.FollowsCode)
    (hcrash : (m.actions sig).Has (.detailed crashHandler))
    (hto : RunsAbove m.behind (m.deliver sig) n)
    (hn : n.code = [.handle sig (m.details sig)] ++ m.behind) :
    n.FollowsCode ∧ n.logging = m.logging ∧ n.saved = m.saved ∧ n.blocked = sig :: m.blocked := by
  have hfollows : n.FollowsCode := (h.deliver sig).reaches hto.reaches
  rw [deliver_of_has hcrash] at hto
  have hentered : (m.deliverAs sig (.detailed crashHandler)).code =
      [.callDetailed crashHandler sig (m.details sig)] ++ m.behind := rfl
  refine ⟨hfollows, ?_, (hto.keeps_mask hentered).1, ?_⟩
  · obtain ⟨mode, hmode, hlogging, hhandling⟩ := hfollows
    rw [hn, List.singleton_append, behind, codeMode_handle, codeMode_cons] at hmode
    have hsame : { n with code := m.code }.FollowsCode :=
      ⟨mode, (Option.bind_fun_some _).symm.trans hmode, hlogging, hhandling⟩
    exact (h.flags_eq hsame rfl).1
  · exact hto.blocked_eq hentered hn (by simp [Instruction.mask?]) (by simp [Instruction.mask?])

/-- Every delivery of an intercepted signal outside log calls is forwarded, at any depth and with or
without a callback, whatever else arrives before the invocation returns. It is forwarded to what the
signal did before the crash handler was installed. -/
theorem delivery_is_forwarded (h₀ : m₀.Quiet) (hm : m₀.Reaches m) (hsig : m.deliverable = some sig)
    (hintercept : sig.CanIntercept) (hcrash : (m.actions sig).Has (.detailed crashHandler))
    (hlogging : m.logging = false) (hreturns : Returns m.behind (m.deliver sig) m') :
    (∀ d, m.Remembers sig d → m.Forwards sig d m') ∧
      ∀ (before : CrashMachine) (d : Disposition), before.installed = false →
        before.installOnce.2.Reaches m → (before.actions sig).Has d → m.Remembers sig d := by
  refine ⟨fun d hd => ?_, fun _ _ hbefore hto => remembers_of_installOnce hbefore hto hintercept⟩
  have hload := hd.load_eq
  have hfollows := h₀.followsCode.reaches hm
  obtain ⟨hrun, hm'⟩ := hreturns
  obtain ⟨_, n, -, -, -, -, hn, hto, hon⟩ :=
    RunsAbove.comes_to .refl hrun hm' [] [] (.callDetailed crashHandler sig (m.details sig))
      (by rw [deliver_of_has hcrash]; rfl)
  rw [execute, if_pos rfl] at hn
  have hcode : n.code = [.handle sig (m.details sig)] ++ m.behind := hn ▸ rfl
  obtain ⟨hn, hlogging', hsaved, hblocked⟩ := hfollows.entered hcrash hto hcode
  have hloaded : (n.saved sig).load = d := by rw [hsaved, hload]
  have hwaits : d = .byDefault → DefaultWaits sig m' ∧ m'.blocked = sig :: m.blocked := by
    intro hdefault
    rw [← hblocked]
    exact defaultWaits_of_byDefault hon hm' hcode hn (hlogging'.trans hlogging) hintercept
      (hblocked ▸ List.mem_cons_self) (hloaded.trans hdefault)
  refine ⟨?_, ?_, ?_, ?_, ?_⟩
  · obtain ⟨⟨is, his⟩, -⟩ := hon.carriesOut hm'
    exact ⟨is, n, hto, hcode, his⟩
  · rintro is ⟨m₁, hto, hcode, his⟩
    obtain ⟨hm₁, hlogging', hsaved, -⟩ := hfollows.entered hcrash hto hcode
    rw [his.of_handle hm' hcode hm₁ (hlogging'.trans hlogging), hsaved, Instruction.leadsTo,
      if_pos ⟨Int.le_of_lt hintercept.1, hintercept.2.1⟩, hload]
  · intro e he
    rw [← hloaded] at he
    obtain ⟨m₁, m₂, hto₁, hstep, htrace, hrun₂⟩ :=
      hon.exists_call hm' hcode hn (hlogging'.trans hlogging) hintercept he
    exact ⟨m₁, m₂, hto.trans hto₁, hstep, htrace, hrun₂⟩
  · intro hdefault
    obtain ⟨hwaits, hblocked⟩ := hwaits hdefault
    exact hwaits.killed hm' hblocked (of_deliverable hsig).2
      (Signal.of_canIntercept hintercept).2.2
  · intro hdefault m'' hrun
    obtain ⟨hpending, hactions, hfront⟩ := (hwaits hdefault).1.until_taken hm' hrun
    refine ⟨hpending, hactions, fun hcode => ?_⟩
    obtain ⟨front, hfront, -⟩ | ⟨-, hblocked⟩ := hfront
    · have hlength := congrArg List.length (hcode.symm.trans hfront)
      simp only [List.length_cons, List.length_append] at hlength
      omega
    · rw [hblocked]
      exact (of_deliverable hsig).2

def raisingHandled : CrashMachine :=
  { initial with
    actions := fun sig => if sig = 1 then ⟨8192, true, false⟩ else .byDefault
    ownPayload := ⟨#[9]⟩
    registers := ⟨#[7]⟩
    callback := some [.raise 1 1]
    frames := ["frame"] }

/-- The signal that is raised in the callback is handled without another callback, and its handler
gets the details. Around it the termination signal is handled, and ends the program. -/
theorem raisingHandled_forwards :
    let outer := raisingHandled.installOnce.2.post 15 ⟨#[42]⟩
    let outer' := steps 43 (outer.deliver 15)
    let inner := steps 10 outer
    let inner' := steps 14 (inner.deliver 1)
    let details : SignalDetails := ⟨some ⟨1, ⟨#[9]⟩⟩, some ⟨⟨#[7]⟩, [15]⟩⟩
    inner.handling = true ∧ inner.deliverable = some 1 ∧
      Returns inner.behind (inner.deliver 1) inner' ∧
      (∃ is, inner.Invocation 1 is inner' ∧ is.filter Instruction.isForwarding =
        [.forward 1 details, .callDetailed 8192 1 details]) ∧
      (∃ m₁ m₂ : CrashMachine, m₁.step = some m₂ ∧
        m₂.trace = m₁.trace.push (.detailedCalled 8192 1 details) ∧
        RunsAbove inner.behind m₂ inner') ∧
      Returns outer.behind (outer.deliver 15) outer' ∧ (steps 2 outer').killedBy = some 15 := by
  intro outer outer' inner inner' details
  have hquiet : raisingHandled.installOnce.2.Quiet := by
    refine ⟨?_, ?_, ?_⟩ <;> decide +kernel
  have houter : raisingHandled.installOnce.2.Reaches outer := .single (.arrive _ 15 _)
  have hinner : raisingHandled.installOnce.2.Reaches inner := houter.trans (reaches_steps 10 outer)
  have hone : inner.deliverable = some 1 := by decide +kernel
  have hreturns : Returns inner.behind (inner.deliver 1) inner' := by
    refine Returns.of_steps [.callDetailed crashHandler 1 details] rfl ?_ ?_ <;> decide +kernel
  have hreturns' : Returns outer.behind (outer.deliver 15) outer' := by
    refine Returns.of_steps [.callDetailed crashHandler 15 (outer.details 15)] rfl ?_ ?_ <;>
      decide +kernel
  have hcrash : ∀ {a : SignalAction}, a = .crash → a.Has (.detailed crashHandler) := by
    rintro _ rfl
    exact .detailed true (by decide)
  obtain ⟨hforwards, hremembers⟩ := delivery_is_forwarded hquiet hinner hone (by decide)
    (hcrash (by decide +kernel)) (by decide +kernel) hreturns
  obtain ⟨hforwards', hremembers'⟩ := delivery_is_forwarded hquiet houter (by decide +kernel)
    (by decide) (hcrash (by decide +kernel)) (by decide +kernel) hreturns'
  have hhandled := hforwards _ (hremembers raisingHandled (.detailed 8192) rfl hinner
    (.detailed false (by decide)))
  have hdefault := hforwards' _ (hremembers' raisingHandled .byDefault rfl houter
    (.byDefault false false))
  have hdetails : inner.details 1 = details := rfl
  obtain ⟨is, his⟩ := hhandled.exists_invocation
  obtain ⟨m₁, m₂, -, hstep, htrace, hrun⟩ := hhandled.called _ rfl
  refine ⟨by decide +kernel, hone, hreturns, ⟨is, his, ?_⟩, ⟨m₁, m₂, hstep, ?_, hrun⟩, hreturns',
    hdefault.killed rfl⟩
  · rw [hhandled.forwarding_eq is his, hdetails]
    rfl
  · rw [htrace, hdetails]

end CrashMachine

end TraceCapture
