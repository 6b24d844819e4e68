import TraceCapture.Proofs.Crash.Originals

set_option autoImplicit false

namespace TraceCapture

def Disposition.forwarding (d : Disposition) (sig : Signal) (details : SignalDetails) :
    List Instruction :=
  match d with
  | .byDefault => [.restoreDefault sig, .raise sig]
  | .ignored => []
  | .plain handler => [.callPlain handler sig]
  | .detailed handler => [.callDetailed handler sig details]

@[simp] def LogPiece.raise? : LogPiece → Option Instruction
  | .text _ => none
  | .raising sig _ => some (.raise sig)

namespace Instruction

@[simp] def isHandle : Instruction → Bool
  | .handle _ _ => true
  | _ => false

@[simp] def isCall : Instruction → Bool
  | .callPlain _ _ | .callDetailed _ _ _ => true
  | _ => false

@[simp] def isForwarding : Instruction → Bool
  | .forward _ _ | .callPlain _ _ | .callDetailed _ _ _ | .restoreDefault _ | .raise _ => true
  | _ => false

def mask? : Instruction → Option (List Signal)
  | .restoreMask blocked => some blocked
  | _ => none

@[simp] def leadsTo (saved : Signal → SavedDisposition) : Instruction → List Instruction
  | .log pieces | .format _ pieces => pieces.filterMap LogPiece.raise?
  | .claim sig details | .forward sig details =>
      .forward sig details :: if 0 ≤ sig ∧ sig < Signal.interceptionLimit then
        (saved sig).load.forwarding sig details else [.raise .kill]
  | .callPlain handler sig => [.callPlain handler sig]
  | .callDetailed handler sig details => [.callDetailed handler sig details]
  | .restoreDefault sig => [.restoreDefault sig]
  | .raise sig => [.raise sig]
  | _ => []

end Instruction

namespace CrashMachine

variable {m m' n : CrashMachine} {sig other : Signal} {details : SignalDetails} {i : Instruction}
  {code front front' rest pushed : List Instruction}

structure Keeps (sig : Signal) (m m' : CrashMachine) : Prop where
  actions_eq : m'.actions sig = m.actions sig
  mem_pending : sig ∈ m.pending → sig ∈ m'.pending

theorem Keeps.refl : Keeps sig m m := ⟨rfl, fun h => h⟩

theorem Keeps.trans (h : Keeps sig m n) (h' : Keeps sig n m') : Keeps sig m m' :=
  ⟨h'.actions_eq.trans h.actions_eq, fun hmem => h'.mem_pending (h.mem_pending hmem)⟩

structure Effect (m : CrashMachine) (i : Instruction) (pushed : List Instruction)
    (m' : CrashMachine) : Prop where
  code_eq : m'.code = pushed ++ m.code
  saved_eq : m'.saved = m.saved
  blocked_eq : m'.blocked = i.mask?.getD m.blocked
  no_mask : ∀ j ∈ pushed, j.mask? = none
  acts_for : ∀ j ∈ pushed, ∀ sig, j.crashSignal? = some sig → i.crashSignal? = some sig
  keeps : ∀ sig, i.crashSignal? ≠ some sig → Keeps sig m m'
  /-- Outside handlers, what the instruction comes to is what it forwards itself and what the code
  put in its place comes to. -/
  leadsTo_eq : i.isCall = false → i.isHandle = false → (∀ j ∈ pushed, j.isHandle = false) ∧
    [i].filter Instruction.isForwarding ++ pushed.flatMap (Instruction.leadsTo m.saved) =
      i.leadsTo m.saved

theorem post_keeps (m : CrashMachine) (sig : Signal) (payload : ByteArray) :
    (m.post sig payload).saved = m.saved ∧ (m.post sig payload).blocked = m.blocked ∧
      (m.post sig payload).actions = m.actions ∧
      ∀ other ∈ m.pending, other ∈ (m.post sig payload).pending := by
  unfold post
  split
  · exact ⟨rfl, rfl, rfl, fun _ h => List.mem_cons_of_mem _ h⟩
  · exact ⟨rfl, rfl, rfl, fun _ h => h⟩

theorem setAction_leaves (m : CrashMachine) (sig : Signal) (a : SignalAction) :
    (m.setAction sig a).blocked = m.blocked ∧
      ∀ other ≠ sig, other ∈ m.pending → other ∈ (m.setAction sig a).pending := by
  unfold setAction
  split
  · refine ⟨rfl, fun other hother h => ?_⟩
    dsimp only
    split
    · exact (List.mem_erase_of_ne hother).mpr h
    · exact h
  · exact ⟨rfl, fun _ _ h => h⟩

theorem Effect.of_push (hcode : m'.code = pushed ++ m.code) (hsaved : m'.saved = m.saved)
    (hblocked : m'.blocked = m.blocked) (hactions : m'.actions = m.actions)
    (hpending : ∀ sig ∈ m.pending, sig ∈ m'.pending) (hmask : i.mask? = none)
    (hpushed : ∀ j ∈ pushed, j.mask? = none ∧
      ∀ sig, j.crashSignal? = some sig → i.crashSignal? = some sig)
    (hleads : i.isCall = false → i.isHandle = false → (∀ j ∈ pushed, j.isHandle = false) ∧
      [i].filter Instruction.isForwarding ++ pushed.flatMap (Instruction.leadsTo m.saved) =
        i.leadsTo m.saved) : Effect m i pushed m' := by
  refine ⟨hcode, hsaved, ?_, fun j hj => (hpushed j hj).1, fun j hj => (hpushed j hj).2,
    fun sig _ => ⟨congrFun hactions sig, hpending sig⟩, hleads⟩
  rw [hmask, hblocked, Option.getD_none]

theorem Effect.of_stay (hcode : m'.code = m.code) (hsaved : m'.saved = m.saved)
    (hblocked : m'.blocked = m.blocked) (hactions : m'.actions = m.actions)
    (hpending : ∀ sig ∈ m.pending, sig ∈ m'.pending) (hmask : i.mask? = none)
    (hleads : i.isHandle = false → [i].filter Instruction.isForwarding = i.leadsTo m.saved) :
    Effect m i [] m' := by
  refine .of_push hcode hsaved hblocked hactions hpending hmask (by simp)
    fun _ hhandle => ⟨by simp, ?_⟩
  rw [List.flatMap_nil, List.append_nil, hleads hhandle]

theorem exists_effect_runCallback (m : CrashMachine) :
    ∃ pushed, Effect m .runCallback pushed (m.execute .runCallback) := by
  rw [execute]
  split
  · exact ⟨[], .of_stay rfl rfl rfl rfl (fun _ h => h) rfl fun _ => rfl⟩
  · next actions _ =>
    have hinstruction : ∀ j ∈ actions.map CallbackAction.instruction ++ [.endCallback],
        j.mask? = none ∧ j.crashSignal? = none ∧ j.isHandle = false ∧ j.leadsTo m.saved = [] := by
      intro j hj
      obtain hj | hj := List.mem_append.mp hj
      · obtain ⟨action, -, rfl⟩ := List.mem_map.mp hj
        cases action <;> exact ⟨rfl, rfl, rfl, rfl⟩
      · cases List.mem_singleton.mp hj
        exact ⟨rfl, rfl, rfl, rfl⟩
    refine ⟨_, .of_push rfl rfl rfl rfl (fun _ h => h) rfl (fun j hj => ?_)
      fun _ _ => ⟨fun j hj => (hinstruction j hj).2.2.1, ?_⟩⟩
    · obtain ⟨hmask, hacts, -⟩ := hinstruction j hj
      exact ⟨hmask, by simp [hacts]⟩
    · exact List.flatMap_eq_nil_iff.mpr fun j hj => (hinstruction j hj).2.2.2

theorem leadsTo_forward (m : CrashMachine) (sig : Signal) (details : SignalDetails) :
    (Instruction.forward sig details).leadsTo m.saved =
      .forward sig details :: match m.savedDisposition sig with
        | none => [.raise .kill]
        | some d => d.forwarding sig details := by
  rw [Instruction.leadsTo, savedDisposition]
  split <;> rfl

theorem exists_effect_forward (m : CrashMachine) (sig : Signal) (details : SignalDetails) :
    ∃ pushed, Effect m (.forward sig details) pushed (m.execute (.forward sig details)) := by
  have hpush : ∀ pushed : List Instruction,
      (∀ j ∈ pushed, j.mask? = none ∧ j.isHandle = false ∧
        ∀ other, j.crashSignal? = some other → sig = other) →
      .forward sig details :: pushed.flatMap (Instruction.leadsTo m.saved) =
        (Instruction.forward sig details).leadsTo m.saved →
      ∃ pushed', Effect m (.forward sig details) pushed' (m.doFirst pushed) := by
    intro pushed hpushed hleads
    refine ⟨pushed, .of_push rfl rfl rfl rfl (fun _ h => h) rfl (fun j hj => ?_)
      fun _ _ => ⟨fun j hj => (hpushed j hj).2.1, hleads⟩⟩
    obtain ⟨hmask, -, hacts⟩ := hpushed j hj
    exact ⟨hmask, fun other hother => congrArg some (hacts other hother)⟩
  have hleads := m.leadsTo_forward sig details
  rw [execute]
  split
  · next hsaved =>
    rw [hsaved] at hleads
    exact hpush _ (by simp [Instruction.mask?, Instruction.crashSignal?, message]) hleads.symm
  · next hsaved =>
    rw [hsaved] at hleads
    exact hpush [] (by simp) hleads.symm
  · next hsaved =>
    rw [hsaved] at hleads
    exact hpush _ (by simp [Instruction.mask?, Instruction.crashSignal?]) hleads.symm
  · next hsaved =>
    rw [hsaved] at hleads
    exact hpush _ (by simp [Instruction.mask?, Instruction.crashSignal?]) hleads.symm
  · next hsaved =>
    rw [hsaved] at hleads
    exact hpush _ (by simp [Instruction.mask?, Instruction.crashSignal?, message]) hleads.symm

theorem exists_effect (m : CrashMachine) (i : Instruction) :
    ∃ pushed, Effect m i pushed (m.execute i) := by
  cases i with
  | log | callPlain | dumpBacktrace =>
    refine ⟨_, .of_push rfl rfl rfl rfl (fun _ h => h) rfl ?_ ?_⟩ <;>
      simp [Instruction.mask?, Instruction.crashSignal?, message]
  | format line pieces =>
    obtain - | ⟨_ | _, pieces⟩ := pieces <;>
      refine ⟨_, .of_push rfl rfl rfl rfl (fun _ h => h) rfl ?_ ?_⟩ <;>
      simp [Instruction.mask?, Instruction.crashSignal?, List.filterMap_cons]
  | endLog | endCallback | release | endHandler =>
    exact ⟨[], .of_stay rfl rfl rfl rfl (fun _ h => h) rfl fun _ => rfl⟩
  | handle =>
    rw [execute]
    split
    · exact ⟨[], .of_stay rfl rfl rfl rfl (fun _ h => h) rfl (by simp)⟩
    · refine ⟨_, .of_push rfl rfl rfl rfl (fun _ h => h) rfl ?_ (by simp)⟩
      simp [Instruction.mask?, Instruction.crashSignal?, message]
  | claim =>
    rw [execute]
    split <;> refine ⟨_, .of_push rfl rfl rfl rfl (fun _ h => h) rfl ?_ ?_⟩ <;>
      simp [Instruction.mask?, Instruction.crashSignal?, message]
  | runCallback => exact m.exists_effect_runCallback
  | forward sig details => exact m.exists_effect_forward sig details
  | callDetailed =>
    rw [execute]
    split
    · next hcrash =>
      refine ⟨_, .of_push rfl rfl rfl rfl (fun _ h => h) rfl ?_ (by simp)⟩
      simp [Instruction.mask?, Instruction.crashSignal?, hcrash]
    · refine ⟨_, .of_push rfl rfl rfl rfl (fun _ h => h) rfl ?_ (by simp)⟩
      simp [Instruction.mask?, Instruction.crashSignal?]
  | restoreDefault sig =>
    obtain ⟨-, hsaved, hactions⟩ := setAction_keeps m sig .byDefault
    obtain ⟨hblocked, hpending⟩ := setAction_leaves m sig .byDefault
    refine ⟨[], code_setAction sig _, hsaved, hblocked, by simp, by simp, fun other hother => ?_,
      by simp⟩
    have hne : other ≠ sig := fun heq => hother (congrArg some heq.symm)
    exact ⟨hactions other hne, hpending other hne⟩
  | raise sig =>
    obtain ⟨hsaved, hblocked, hactions, hpending⟩ := post_keeps m sig m.ownPayload
    exact ⟨[], .of_stay (code_post sig _) hsaved hblocked hactions hpending rfl fun _ => rfl⟩
  | raiseUpTo sig limit =>
    rw [execute]
    split
    · obtain ⟨hsaved, hblocked, hactions, hpending⟩ :=
        post_keeps { m with raised := m.raised + 1 } sig m.ownPayload
      exact ⟨[], .of_stay (code_post sig _) hsaved hblocked hactions hpending rfl fun _ => rfl⟩
    · exact ⟨[], .of_stay rfl rfl rfl rfl (fun _ h => h) rfl fun _ => rfl⟩
  | restoreMask blocked =>
    exact ⟨[], rfl, rfl, rfl, by simp, by simp, fun _ _ => ⟨rfl, fun h => h⟩, by simp⟩

def maskBehind (blocked : List Signal) (front : List Instruction) : List Signal :=
  front.foldl (fun blocked i => i.mask?.getD blocked) blocked

theorem maskBehind_append (blocked : List Signal) (pushed front : List Instruction) :
    maskBehind blocked (pushed ++ front) = maskBehind (maskBehind blocked pushed) front :=
  List.foldl_append

theorem maskBehind_of_forall {blocked : List Signal} (h : ∀ i ∈ front, i.mask? = none) :
    maskBehind blocked front = blocked := by
  induction front with
  | nil => rfl
  | cons i front ih =>
    rw [maskBehind, List.foldl_cons, h i List.mem_cons_self]
    exact ih fun j hj => h j (List.mem_cons_of_mem i hj)

/-- Code that leaves a blocked signal alone: the signal stays blocked, and nothing acts for it. -/
structure LeavesAlone (sig : Signal) (m : CrashMachine) (front : List Instruction) : Prop where
  hblocked : sig ∈ m.blocked
  hmasks : ∀ i ∈ front, ∀ mask, i.mask? = some mask → sig ∈ mask
  hacts : ∀ i ∈ front, i.crashSignal? ≠ some sig

theorem leavesAlone_nil (h : sig ∈ m.blocked) : LeavesAlone sig m [] := ⟨h, by simp, by simp⟩

theorem of_deliverable (h : m.deliverable = some sig) : sig ∈ m.pending ∧ sig ∉ m.blocked := by
  simpa using List.min?_mem h

structure Delivery (m : CrashMachine) (sig : Signal) (pushed : List Instruction)
    (m' : CrashMachine) : Prop where
  code_eq : m'.code = pushed ++ m.code
  saved_eq : m'.saved = m.saved
  mask_eq : maskBehind m'.blocked pushed = m.blocked
  keeps : ∀ other ≠ sig, Keeps other m m'
  leavesAlone : ∀ other ≠ sig, other ∈ m.blocked → LeavesAlone other m' pushed

theorem exists_delivery (m : CrashMachine) (sig : Signal) :
    ∃ pushed, Delivery m sig pushed (m.deliver sig) := by
  have hkeeps : ∀ other ≠ sig, other ∈ m.pending → other ∈ m.pending.erase sig :=
    fun other hother hmem => (List.mem_erase_of_ne hother).mpr hmem
  have hstay : ∀ killedBy, Delivery m sig [] { m.take sig with killedBy } :=
    fun _ => ⟨rfl, rfl, rfl, fun other hother => ⟨rfl, hkeeps other hother⟩,
      fun _ _ hmem => leavesAlone_nil hmem⟩
  have henter : ∀ call : Instruction, call.mask? = none →
      (∀ other, call.crashSignal? = some other → other = sig) →
      Delivery m sig [call, .restoreMask m.blocked] (m.enter sig call) := by
    intro call hmask hacts
    have hmask_eq : maskBehind (m.enter sig call).blocked [call, .restoreMask m.blocked] =
        m.blocked := by
      simp [maskBehind, Instruction.mask?]
    refine ⟨rfl, rfl, hmask_eq, fun other hother => ⟨rfl, hkeeps other hother⟩,
      fun other hother hmem => ⟨List.mem_cons_of_mem _ hmem, fun i hi mask hmask' => ?_,
        fun i hi hacts' => ?_⟩⟩
    · obtain rfl | hi := List.mem_cons.mp hi
      · cases hmask.symm.trans hmask'
      · cases List.mem_singleton.mp hi
        cases hmask'
        exact hmem
    · obtain rfl | hi := List.mem_cons.mp hi
      · exact hother (hacts other hacts')
      · cases List.mem_singleton.mp hi
        cases hacts'
  obtain ⟨d, hd⟩ := (m.actions sig).exists_has
  rw [deliver_of_has hd]
  cases d with
  | byDefault => exact ⟨[], hstay _⟩
  | ignored => exact ⟨[], hstay m.killedBy⟩
  | plain => exact ⟨_, henter _ rfl nofun⟩
  | detailed handler =>
    refine ⟨_, henter _ rfl fun other hother => ?_⟩
    exact (Option.some.inj (Option.ite_none_right_eq_some.mp hother).2).symm

/-- What happens next leaves what was saved, and comes to the same mask. -/
theorem Next.keeps_mask (hm : m.code = i :: (code ++ rest)) (h : m.Next m') :
    m'.saved = m.saved ∧ ∃ front, m'.code = front ++ rest ∧
      maskBehind m'.blocked front = maskBehind m.blocked (i :: code) := by
  obtain ⟨sig, payload, rfl⟩ | ⟨registers, rfl⟩ | ⟨sig, -, -, rfl⟩ | ⟨-, -, rfl⟩ :=
    h.cases_busy hm
  · obtain ⟨hsaved, hblocked, -⟩ := m.post_keeps sig payload
    exact ⟨hsaved, i :: code, (code_post sig payload).trans hm, by rw [hblocked]⟩
  · exact ⟨rfl, i :: code, hm, rfl⟩
  · obtain ⟨pushed, hdelivery⟩ := m.exists_delivery sig
    refine ⟨hdelivery.saved_eq, pushed ++ i :: code, ?_, ?_⟩
    · rw [hdelivery.code_eq, hm, List.append_assoc, List.cons_append]
    · rw [maskBehind_append, hdelivery.mask_eq]
  · obtain ⟨pushed, heffect⟩ := exists_effect { m with code := code ++ rest } i
    refine ⟨heffect.saved_eq, pushed ++ code, by rw [heffect.code_eq, List.append_assoc], ?_⟩
    rw [maskBehind_append, maskBehind_of_forall heffect.no_mask, heffect.blocked_eq]
    rfl

theorem RunsAbove.keeps_mask (hm : m.code = front ++ rest) (h : RunsAbove rest m m') :
    m'.saved = m.saved ∧ ∃ front', m'.code = front' ++ rest ∧
      maskBehind m'.blocked front' = maskBehind m.blocked front := by
  induction h with
  | refl => exact ⟨rfl, front, hm, rfl⟩
  | @tail n m' _ hnext ih =>
    obtain ⟨hsaved, front', hn, hmask⟩ := ih
    obtain ⟨⟨i, code, hcode⟩, hnext⟩ := hnext
    obtain rfl : front' = i :: code := List.append_cancel_right (hn.symm.trans hcode)
    obtain ⟨hsaved', front'', hm', hmask'⟩ := hnext.keeps_mask hcode
    exact ⟨hsaved'.trans hsaved, front'', hm', hmask'.trans hmask⟩

theorem Returns.keeps_mask (hm : m.code = front ++ rest) (h : Returns rest m m') :
    m'.saved = m.saved ∧ m'.blocked = maskBehind m.blocked front := by
  obtain ⟨hsaved, front', hm', hmask⟩ := h.1.keeps_mask hm
  rw [h.2, List.self_eq_append_left] at hm'
  rw [hm'] at hmask
  exact ⟨hsaved, hmask⟩

/-- While a signal is left alone, it is so until the next instruction behind is carried out. -/
theorem Next.leavesAlone (hm : m.code = i :: code) (hsig : sig ∈ m.blocked) (h : m.Next m') :
    (∃ pushed, m'.code = pushed ++ i :: code ∧ LeavesAlone sig m' pushed ∧ Keeps sig m m') ∨
      m' = { m with code }.execute i := by
  obtain ⟨other, payload, rfl⟩ | ⟨registers, rfl⟩ | ⟨other, -, hother, rfl⟩ | ⟨-, -, rfl⟩ :=
    h.cases_busy hm
  · obtain ⟨-, hblocked, hactions, hpending⟩ := m.post_keeps other payload
    exact .inl ⟨[], (code_post other payload).trans hm, leavesAlone_nil (hblocked ▸ hsig),
      ⟨congrFun hactions sig, hpending sig⟩⟩
  · exact .inl ⟨[], hm, leavesAlone_nil hsig, ⟨rfl, fun hmem => hmem⟩⟩
  · have hne : sig ≠ other := by
      rintro rfl
      exact (of_deliverable hother).2 hsig
    obtain ⟨pushed, hdelivery⟩ := m.exists_delivery other
    exact .inl ⟨pushed, hm ▸ hdelivery.code_eq, hdelivery.leavesAlone sig hne hsig,
      hdelivery.keeps sig hne⟩
  · exact .inr rfl

theorem LeavesAlone.execute (h : LeavesAlone sig m (i :: front)) (code : List Instruction) :
    ∃ pushed, ({ m with code }.execute i).code = pushed ++ code ∧
      LeavesAlone sig ({ m with code }.execute i) (pushed ++ front) ∧
      Keeps sig m ({ m with code }.execute i) := by
  obtain ⟨pushed, heffect⟩ := exists_effect { m with code } i
  have hacts := h.hacts i List.mem_cons_self
  obtain ⟨hactions, hpending⟩ := heffect.keeps sig hacts
  refine ⟨pushed, heffect.code_eq, ⟨?_, ?_, ?_⟩, ⟨hactions, hpending⟩⟩
  · rw [heffect.blocked_eq]
    cases hmask : i.mask? with
    | none => exact h.hblocked
    | some mask => exact h.hmasks i List.mem_cons_self mask hmask
  · intro j hj mask hmask
    obtain hj | hj := List.mem_append.mp hj
    · cases (heffect.no_mask j hj).symm.trans hmask
    · exact h.hmasks j (List.mem_cons_of_mem i hj) mask hmask
  · intro j hj hsig
    obtain hj | hj := List.mem_append.mp hj
    · exact hacts (heffect.acts_for j hj sig hsig)
    · exact h.hacts j (List.mem_cons_of_mem i hj) hsig

theorem LeavesAlone.append (h : LeavesAlone sig m pushed)
    (h' : LeavesAlone sig n front) : LeavesAlone sig m (pushed ++ front) := by
  refine ⟨h.hblocked, fun i hi => ?_, fun i hi => ?_⟩
  · exact (List.mem_append.mp hi).elim (h.hmasks i) (h'.hmasks i)
  · exact (List.mem_append.mp hi).elim (h.hacts i) (h'.hacts i)

theorem LeavesAlone.next (h : LeavesAlone sig m (i :: front)) (hm : m.code = i :: (front ++ rest))
    (hnext : m.Next m') : ∃ front', m'.code = front' ++ rest ∧ LeavesAlone sig m' front' ∧
      Keeps sig m m' := by
  obtain ⟨pushed, hcode, halone, hkeeps⟩ | rfl := hnext.leavesAlone hm h.hblocked
  · exact ⟨pushed ++ i :: front, by rw [hcode]; simp, halone.append h, hkeeps⟩
  · obtain ⟨pushed, hcode, halone, hkeeps⟩ := h.execute (front ++ rest)
    exact ⟨pushed ++ front, by rw [hcode, List.append_assoc], halone, hkeeps⟩

theorem LeavesAlone.runsAbove (h : LeavesAlone sig m front) (hm : m.code = front ++ rest)
    (hrun : RunsAbove rest m m') : ∃ front', m'.code = front' ++ rest ∧
      LeavesAlone sig m' front' ∧ Keeps sig m m' := by
  induction hrun with
  | refl => exact ⟨front, hm, h, .refl⟩
  | @tail n m' _ hnext ih =>
    obtain ⟨front', hn, halone, hkeeps⟩ := ih
    obtain ⟨⟨i, code, hcode⟩, hnext⟩ := hnext
    obtain rfl : front' = i :: code := List.append_cancel_right (hn.symm.trans hcode)
    obtain ⟨front'', hm', halone', hkeeps'⟩ := halone.next hcode hnext
    exact ⟨front'', hm', halone', hkeeps.trans hkeeps'⟩

theorem RunsAbove.blocked_eq (h : RunsAbove rest m m')
    (hm : m.code = front ++ rest) (hm' : m'.code = front' ++ rest)
    (hfront : ∀ i ∈ front, i.mask? = none) (hfront' : ∀ i ∈ front', i.mask? = none) :
    m'.blocked = m.blocked := by
  obtain ⟨-, front'', hcode, hmask⟩ := h.keeps_mask hm
  obtain rfl := List.append_cancel_right (hm'.symm.trans hcode)
  rwa [maskBehind_of_forall hfront', maskBehind_of_forall hfront] at hmask

end CrashMachine

end TraceCapture
