import TraceCapture.Crash.Rest
import TraceCapture.Proofs.Crash.Effects

set_option autoImplicit false

/-!
# A program under signals comes to rest

Every step takes more from the bound than it adds, unless the crash handler chains to itself. A
signal whose default is restored is raised once more, but has no handler any more when it is
delivered; the signals that callbacks raise are counted apart.
-/

namespace TraceCapture.CrashMachine

/-- What keeps handlers from going on for ever. -/
structure Settles (m : CrashMachine) : Prop where
  saved_ne : ∀ sig, (m.saved sig).load ≠ .detailed crashHandler
  byDefault : ∀ sig : Signal, sig.isCatchable = false → (m.actions sig).handler = 0

def Milder (t t' : SignalAction.Table) : Prop :=
  ∀ sig, t sig = t' sig ∨ (t sig).handler ≤ 1

variable {c f : Nat} {t t' : SignalAction.Table} {m m' : CrashMachine} {sig : Signal}
  {i : Instruction} {code pushed : List Instruction}

section

variable {α β : Type} {count count' : α → Nat} {xs ys : List α}

@[simp] theorem total_nil : total count [] = 0 := rfl

@[simp] theorem total_cons {x : α} : total count (x :: xs) = count x + total count xs := rfl

theorem total_append : total count (xs ++ ys) = total count xs + total count ys := by
  induction xs with
  | nil => exact (Nat.zero_add _).symm
  | cons x xs ih => rw [List.cons_append, total, total, ih, Nat.add_assoc]

theorem total_le_total (h : ∀ x, count x ≤ count' x) : total count xs ≤ total count' xs := by
  induction xs with
  | nil => exact Nat.le_refl 0
  | cons x xs ih => exact Nat.add_le_add (h x) ih

theorem total_le_of_sublist (h : xs.Sublist ys) : total count xs ≤ total count ys := by
  induction h with
  | slnil => exact Nat.le_refl 0
  | cons x _ ih => exact Nat.le_trans ih (Nat.le_add_left _ _)
  | cons_cons x _ ih => exact Nat.add_le_add_left ih _

theorem total_map_le {f : β → α} {n : Nat} (h : ∀ b, count (f b) ≤ n) (bs : List β) :
    total count (bs.map f) ≤ n * bs.length := by
  induction bs with
  | nil => exact Nat.zero_le _
  | cons b bs ih =>
    have hb := h b
    rw [List.map_cons, total, List.length_cons, Nat.mul_succ]
    omega

theorem total_erase [BEq α] [LawfulBEq α] {x : α} (h : x ∈ xs) :
    count x + total count (xs.erase x) = total count xs := by
  induction xs with
  | nil => cases h
  | cons y ys ih =>
    by_cases hy : y = x
    · rw [hy, List.erase_cons_head, total]
    · have hx : x ∈ ys := (List.mem_cons.mp h).resolve_left fun heq => hy heq.symm
      have hrest := ih hx
      rw [List.erase_cons_tail (by simpa using hy), total, total]
      omega

end

theorem highestLimit_le_iff {n : Nat} :
    highestLimit code ≤ n ↔ ∀ i ∈ code, i.raiseLimit ≤ n := by
  induction code with
  | nil => exact ⟨fun _ => nofun, fun _ => Nat.zero_le n⟩
  | cons i code ih => rw [highestLimit, Nat.max_le, ih, List.forall_mem_cons]

theorem one_le_signalSteps : 1 ≤ signalSteps c f t sig := by
  unfold signalSteps handlerSteps
  split <;> omega

theorem signalSteps_le : signalSteps c f t sig ≤ handlerSteps c f := by
  unfold signalSteps handlerSteps
  split <;> omega

theorem signalSteps_of_handler_le (h : (t sig).handler ≤ 1) : signalSteps c f t sig = 1 :=
  if_pos h

theorem one_le_instructionSteps : 1 ≤ instructionSteps c f t i := by
  cases i <;> simp only [instructionSteps, handlerSteps] <;> (try split) <;> omega

theorem Milder.signalSteps_le (h : Milder t t') :
    signalSteps c f t sig ≤ signalSteps c f t' sig := by
  obtain heq | hle := h sig
  · rw [signalSteps, signalSteps, heq]
  · rw [signalSteps_of_handler_le hle]
    exact one_le_signalSteps

theorem Milder.refl : Milder t t := fun _ => .inl rfl

theorem milder_behind : Milder (t.behind i) t := by
  cases i with
  | restoreDefault sig =>
    intro other
    unfold SignalAction.Table.behind
    dsimp only
    split
    · by_cases hother : other = sig
      · rw [hother, SignalAction.Table.set_self]
        exact .inr (by decide)
      · exact .inl (SignalAction.Table.set_of_ne t _ hother)
    · exact .inl rfl
  | _ => exact .refl

theorem Milder.behind (h : Milder t t') : Milder (t.behind i) (t'.behind i) := by
  cases i with
  | restoreDefault sig =>
    intro other
    unfold SignalAction.Table.behind
    dsimp only
    split
    · by_cases hother : other = sig
      · rw [hother, SignalAction.Table.set_self, SignalAction.Table.set_self]
        exact .inl rfl
      · rw [SignalAction.Table.set_of_ne t _ hother, SignalAction.Table.set_of_ne t' _ hother]
        exact h other
    · exact h other
  | _ => exact h

theorem Milder.pieceSteps_le (h : Milder t t') (piece : LogPiece) :
    pieceSteps c f t piece ≤ pieceSteps c f t' piece := by
  cases piece with
  | text => exact Nat.le_refl 1
  | raising => exact Nat.add_le_add_right h.signalSteps_le 3

theorem Milder.instructionSteps_le (h : Milder t t') :
    instructionSteps c f t i ≤ instructionSteps c f t' i := by
  cases i with
  | log | format => exact Nat.add_le_add_right (total_le_total h.pieceSteps_le) _
  | raise => exact Nat.add_le_add_right h.signalSteps_le 1
  | _ => exact Nat.le_refl _

theorem Milder.codeSteps_le (h : Milder t t') : codeSteps c f t code ≤ codeSteps c f t' code := by
  induction code generalizing t t' with
  | nil => exact Nat.le_refl 0
  | cons i code ih => exact Nat.add_le_add h.instructionSteps_le (ih h.behind)

theorem codeSteps_append (hpushed : ∀ i ∈ pushed, t.behind i = t) :
    codeSteps c f t (pushed ++ code) =
      total (instructionSteps c f t) pushed + codeSteps c f t code := by
  induction pushed with
  | nil => exact (Nat.zero_add _).symm
  | cons i pushed ih =>
    rw [List.cons_append, codeSteps, hpushed i List.mem_cons_self,
      ih fun j hj => hpushed j (List.mem_cons_of_mem i hj), total, Nat.add_assoc]

theorem raiseLimit_le {n : Nat} (hcode : ∀ i ∈ m.code, i.raiseLimit ≤ n)
    (hcallback : ∀ i ∈ m.callbackCode, i.raiseLimit ≤ n) : m.raiseLimit ≤ n :=
  highestLimit_le_iff.mpr fun i hi => (List.mem_append.mp hi).elim (hcode i) (hcallback i)

theorem le_raiseLimit (hi : i ∈ m.code ∨ i ∈ m.callbackCode) : i.raiseLimit ≤ m.raiseLimit :=
  highestLimit_le_iff.mp (Nat.le_refl _) i (List.mem_append.mpr hi)

def busySteps (m : CrashMachine) : Nat :=
  codeSteps (m.callback.getD []).length m.frames.length m.actions m.code +
    total (signalSteps (m.callback.getD []).length m.frames.length m.actions) m.pending

theorem stepsToRest_eq (m : CrashMachine) : m.stepsToRest = m.busySteps +
    (m.raiseLimit - m.raised) * handlerSteps (m.callback.getD []).length m.frames.length :=
  rfl

theorem stepsToRest_lt_of_busySteps_lt (hcallback : m'.callback = m.callback)
    (hframes : m'.frames = m.frames) (hraised : m'.raised = m.raised)
    (hlimits : ∀ i ∈ m'.code, i.raiseLimit = 0 ∨ i ∈ m.code ∨ i ∈ m.callbackCode)
    (hsteps : m'.busySteps < m.busySteps) : m'.stepsToRest < m.stepsToRest := by
  have hcallbackCode : m'.callbackCode = m.callbackCode := by
    rw [callbackCode, hcallback]
    rfl
  have hlimit : m'.raiseLimit ≤ m.raiseLimit := by
    refine raiseLimit_le (fun i hi => ?_) fun i hi => le_raiseLimit (.inr (hcallbackCode ▸ hi))
    obtain hzero | hi := hlimits i hi
    · exact hzero ▸ Nat.zero_le _
    · exact le_raiseLimit hi
  have hraises := Nat.mul_le_mul_right (handlerSteps (m.callback.getD []).length m.frames.length)
    (Nat.sub_le_sub_right hlimit m.raised)
  rw [stepsToRest_eq, stepsToRest_eq, hcallback, hframes, hraised]
  omega

theorem stepsToRest_lt_of_push (hcode : m.code = i :: code) (hcode' : m'.code = pushed ++ code)
    (hactions : m'.actions = m.actions) (hpending : m'.pending = m.pending)
    (hcallback : m'.callback = m.callback) (hframes : m'.frames = m.frames)
    (hraised : m'.raised = m.raised)
    (hlimits : ∀ j ∈ pushed, j.raiseLimit = 0 ∨ j ∈ m.callbackCode)
    (hsteps : codeSteps (m.callback.getD []).length m.frames.length m.actions (pushed ++ code) <
      codeSteps (m.callback.getD []).length m.frames.length m.actions (i :: code)) :
    m'.stepsToRest < m.stepsToRest := by
  refine stepsToRest_lt_of_busySteps_lt hcallback hframes hraised (fun j hj => ?_) ?_
  · obtain hj | hj := List.mem_append.mp (hcode' ▸ hj)
    · exact (hlimits j hj).imp_right .inr
    · exact .inr (.inl (hcode ▸ List.mem_cons_of_mem i hj))
  · rw [busySteps, busySteps, hcode, hcode', hactions, hpending, hcallback, hframes]
    exact Nat.add_lt_add_right hsteps _

/-- Where no default is restored, the steps of each instruction are counted for itself. -/
theorem codeSteps_lt_of_total_lt (hpushed : ∀ j ∈ pushed, t.behind j = t) (hi : t.behind i = t)
    (hsteps : total (instructionSteps c f t) pushed < instructionSteps c f t i) :
    codeSteps c f t (pushed ++ code) < codeSteps c f t (i :: code) := by
  rw [codeSteps_append hpushed, codeSteps, hi]
  exact Nat.add_lt_add_right hsteps _

theorem stepsToRest_lt_of_total_lt (hcode : m.code = i :: code) (hcode' : m'.code = pushed ++ code)
    (hactions : m'.actions = m.actions) (hpending : m'.pending = m.pending)
    (hcallback : m'.callback = m.callback) (hframes : m'.frames = m.frames)
    (hraised : m'.raised = m.raised)
    (hlimits : ∀ j ∈ pushed, j.raiseLimit = 0 ∨ j ∈ m.callbackCode)
    (hpushed : ∀ j ∈ pushed, m.actions.behind j = m.actions)
    (hi : m.actions.behind i = m.actions)
    (htotal : total
        (instructionSteps (m.callback.getD []).length m.frames.length m.actions) pushed <
      instructionSteps (m.callback.getD []).length m.frames.length m.actions i) :
    m'.stepsToRest < m.stepsToRest :=
  stepsToRest_lt_of_push hcode hcode' hactions hpending hcallback hframes hraised hlimits
    (codeSteps_lt_of_total_lt hpushed hi htotal)

theorem stepsToRest_lt_of_stay (hcode : m.code = i :: code) (hcode' : m'.code = code)
    (hactions : m'.actions = m.actions) (hpending : m'.pending = m.pending)
    (hcallback : m'.callback = m.callback) (hframes : m'.frames = m.frames)
    (hraised : m'.raised = m.raised) (hi : m.actions.behind i = m.actions) :
    m'.stepsToRest < m.stepsToRest :=
  stepsToRest_lt_of_total_lt hcode (hcode'.trans (List.nil_append code).symm) hactions hpending
    hcallback hframes hraised nofun nofun hi one_le_instructionSteps

theorem instructionSteps_message (s : String) : instructionSteps c f t (message s) = 4 := by
  simp [instructionSteps, message, pieceSteps]

theorem behind_message (s : String) : t.behind (message s) = t := rfl

theorem instructionSteps_callback_le (action : CallbackAction) :
    instructionSteps c f t (CallbackAction.instruction action) ≤ 4 := by
  cases action with
  | log s => exact Nat.le_of_eq (instructionSteps_message s)
  | raise sig limit => exact Nat.le_add_left 1 3

theorem pendingSteps_post (m : CrashMachine) (sig : Signal) (payload : ByteArray) :
    total (signalSteps c f t) (m.post sig payload).pending ≤
      signalSteps c f t sig + total (signalSteps c f t) m.pending := by
  unfold post
  split
  · exact Nat.le_refl _
  · exact Nat.le_add_left _ _

theorem post_same (m : CrashMachine) (sig : Signal) (payload : ByteArray) :
    ∃ pending payloads, m.post sig payload = { m with pending, payloads } := by
  unfold post
  split <;> exact ⟨_, _, rfl⟩

theorem stepsToRest_raise_lt (hcode : m.code = .raise sig :: code) :
    ({ m with code }.execute (.raise sig)).stepsToRest < m.stepsToRest := by
  have hpending := pendingSteps_post (c := (m.callback.getD []).length) (f := m.frames.length)
    (t := m.actions) { m with code } sig m.ownPayload
  obtain ⟨pending, payloads, hpost⟩ := post_same { m with code } sig m.ownPayload
  rw [hpost] at hpending
  rw [execute, hpost]
  refine stepsToRest_lt_of_busySteps_lt rfl rfl rfl (fun i hi => ?_) ?_
  · exact .inr (.inl (hcode ▸ List.mem_cons_of_mem _ hi))
  · rw [busySteps, busySteps, hcode, codeSteps, instructionSteps]
    simp only [SignalAction.Table.behind] at *
    omega

/-- What a signal takes that a callback raises is no longer counted among those to come. -/
theorem stepsToRest_raiseUpTo_lt {limit : Nat} (hcode : m.code = .raiseUpTo sig limit :: code) :
    ({ m with code }.execute (.raiseUpTo sig limit)).stepsToRest < m.stepsToRest := by
  have hlimit : limit ≤ m.raiseLimit :=
    le_raiseLimit (i := .raiseUpTo sig limit) (.inl (hcode ▸ List.mem_cons_self))
  have hbehind : ∀ i ∈ code, i ∈ m.code := fun i hi => hcode ▸ List.mem_cons_of_mem _ hi
  rw [execute]
  split
  · next hraises =>
    have hpending := pendingSteps_post (c := (m.callback.getD []).length) (f := m.frames.length)
      (t := m.actions) { m with code, raised := m.raised + 1 } sig m.ownPayload
    have hsignal : signalSteps (m.callback.getD []).length m.frames.length m.actions sig ≤ _ :=
      signalSteps_le
    obtain ⟨pending, payloads, hpost⟩ :=
      post_same { m with code, raised := m.raised + 1 } sig m.ownPayload
    rw [hpost] at hpending
    dsimp only at hpost hraises
    have hle : ({ m with code, raised := m.raised + 1, pending, payloads } :
        CrashMachine).raiseLimit ≤ m.raiseLimit :=
      raiseLimit_le (fun i hi => le_raiseLimit (.inl (hbehind i hi)))
        fun i hi => le_raiseLimit (.inr hi)
    have hleft := Nat.mul_le_mul_right (handlerSteps (m.callback.getD []).length m.frames.length)
      (Nat.sub_le_sub_right hle (m.raised + 1))
    have hone : m.raiseLimit - m.raised = m.raiseLimit - (m.raised + 1) + 1 := by omega
    rw [hpost, stepsToRest_eq, stepsToRest_eq, hone, Nat.add_mul, busySteps, busySteps, hcode,
      codeSteps, instructionSteps]
    simp only [SignalAction.Table.behind] at *
    omega
  · exact stepsToRest_lt_of_stay hcode rfl rfl rfl rfl rfl rfl rfl

/-- What follows a restored default is counted with it already. -/
theorem stepsToRest_restoreDefault_lt (hcode : m.code = .restoreDefault sig :: code) :
    ({ m with code }.execute (.restoreDefault sig)).stepsToRest < m.stepsToRest := by
  have hmild : Milder (m.actions.behind (.restoreDefault sig)) m.actions := milder_behind
  have hset : ∃ pending, pending.Sublist m.pending ∧
      { m with code }.setAction sig .byDefault =
        { m with code, actions := m.actions.behind (.restoreDefault sig), pending } := by
    unfold setAction SignalAction.Table.behind
    dsimp only
    split
    · refine ⟨_, ?_, rfl⟩
      split
      · exact List.erase_sublist
      · exact .refl _
    · exact ⟨_, .refl _, rfl⟩
  obtain ⟨pending, hsublist, hset⟩ := hset
  rw [execute, hset]
  refine stepsToRest_lt_of_busySteps_lt rfl rfl rfl (fun i hi => ?_) ?_
  · exact .inr (.inl (hcode ▸ List.mem_cons_of_mem _ hi))
  · have hpending : total (signalSteps (m.callback.getD []).length m.frames.length
        (m.actions.behind (.restoreDefault sig))) pending ≤ _ :=
      Nat.le_trans (total_le_total fun _ => hmild.signalSteps_le) (total_le_of_sublist hsublist)
    rw [busySteps, busySteps, hcode, codeSteps, instructionSteps]
    dsimp only
    omega

theorem stepsToRest_forward_lt {details : SignalDetails} (h : m.Settles)
    (hcode : m.code = .forward sig details :: code) :
    ({ m with code }.execute (.forward sig details)).stepsToRest < m.stepsToRest := by
  have hpush : ∀ pushed : List Instruction, (∀ j ∈ pushed, j.raiseLimit = 0) →
      (∀ j ∈ pushed, m.actions.behind j = m.actions) →
      total (instructionSteps (m.callback.getD []).length m.frames.length m.actions) pushed < 8 →
      ({ m with code }.doFirst pushed).stepsToRest < m.stepsToRest :=
    fun pushed hlimits hpushed htotal => stepsToRest_lt_of_total_lt hcode rfl rfl rfl rfl rfl rfl
      (fun j hj => .inl (hlimits j hj)) hpushed rfl htotal
  rw [execute]
  split
  · have hkill : (m.actions .kill).handler ≤ 1 := by
      rw [h.byDefault .kill (by decide)]
      decide
    refine hpush _ (by simp [Instruction.raiseLimit, message])
      (by simp [SignalAction.Table.behind, message]) ?_
    simp [instructionSteps, message, pieceSteps, signalSteps_of_handler_le hkill]
  · exact hpush [] (by simp) (by simp) (by simp)
  · exact hpush _ (by simp [Instruction.raiseLimit]) (by simp [SignalAction.Table.behind])
      (by simp [instructionSteps])
  · next handler hloaded =>
    have hother : handler ≠ crashHandler := by
      rintro rfl
      unfold savedDisposition at hloaded
      obtain ⟨-, hload⟩ := Option.ite_none_right_eq_some.mp hloaded
      exact h.saved_ne sig (Option.some.inj hload)
    exact hpush _ (by simp [Instruction.raiseLimit]) (by simp [SignalAction.Table.behind])
      (by simp [instructionSteps, hother])
  · refine stepsToRest_lt_of_push hcode rfl rfl rfl rfl rfl rfl
      (by simp [Instruction.raiseLimit, message]) ?_
    have hbehind : (m.actions.behind (.restoreDefault sig) sig).handler ≤ 1 := by
      unfold SignalAction.Table.behind
      dsimp only
      split
      · rw [SignalAction.Table.set_self]
        decide
      · next hcatchable =>
        rw [h.byDefault sig (Bool.eq_false_iff.mpr hcatchable)]
        decide
    have hmild : codeSteps (m.callback.getD []).length m.frames.length
        (m.actions.behind (.restoreDefault sig)) code ≤ _ := milder_behind.codeSteps_le
    simp only [List.cons_append, List.nil_append, codeSteps, instructionSteps_message,
      behind_message]
    simp only [instructionSteps]
    rw [signalSteps_of_handler_le (by exact hbehind)]
    simp only [SignalAction.Table.behind] at *
    omega

theorem stepsToRest_execute_lt (h : m.Settles) (hcode : m.code = i :: code) :
    ({ m with code }.execute i).stepsToRest < m.stepsToRest := by
  cases i with
  | log | callPlain =>
    exact stepsToRest_lt_of_total_lt hcode rfl rfl rfl rfl rfl rfl
      (by simp [Instruction.raiseLimit])
      (by simp [SignalAction.Table.behind]) rfl (by simp [instructionSteps])
  | format line pieces =>
    obtain - | ⟨_ | _, pieces⟩ := pieces <;>
      refine stepsToRest_lt_of_total_lt hcode rfl rfl rfl rfl rfl rfl
        (by simp [Instruction.raiseLimit]) (by simp [SignalAction.Table.behind]) rfl ?_ <;>
      simp [instructionSteps, pieceSteps]
    omega
  | handle =>
    rw [execute]
    split
    · exact stepsToRest_lt_of_stay hcode rfl rfl rfl rfl rfl rfl rfl
    · refine stepsToRest_lt_of_total_lt hcode rfl rfl rfl rfl rfl rfl
        (by simp [Instruction.raiseLimit, message])
        (by simp [SignalAction.Table.behind, message]) rfl ?_
      simp [instructionSteps, message, pieceSteps, handlerSteps]
      omega
  | claim =>
    rw [execute]
    split <;> refine stepsToRest_lt_of_total_lt hcode rfl rfl rfl rfl rfl rfl
        (by simp [Instruction.raiseLimit, message])
        (by simp [SignalAction.Table.behind, message]) rfl ?_
    · simp [instructionSteps, message, pieceSteps, handlerSteps]
    · simp [instructionSteps, handlerSteps]
      omega
  | runCallback =>
    rw [execute]
    split
    · exact stepsToRest_lt_of_stay hcode rfl rfl rfl rfl rfl rfl rfl
    · next actions hcallback =>
      dsimp only at hcallback
      have hcode' : m.callbackCode = actions.map CallbackAction.instruction := by
        rw [callbackCode, hcallback]
        rfl
      refine stepsToRest_lt_of_total_lt hcode rfl rfl rfl rfl rfl rfl (fun j hj => ?_)
        (fun j hj => ?_) rfl ?_
      · obtain hj | hj := List.mem_append.mp hj
        · exact .inr (hcode' ▸ hj)
        · cases List.mem_singleton.mp hj
          exact .inl rfl
      · obtain hj | hj := List.mem_append.mp hj
        · obtain ⟨action, -, rfl⟩ := List.mem_map.mp hj
          cases action <;> rfl
        · cases List.mem_singleton.mp hj
          rfl
      · have hactions := total_map_le (instructionSteps_callback_le
          (c := (m.callback.getD []).length) (f := m.frames.length) (t := m.actions)) actions
        rw [total_append]
        simp only [hcallback, Option.getD_some, instructionSteps, total] at hactions ⊢
        omega
  | dumpBacktrace =>
    refine stepsToRest_lt_of_total_lt hcode rfl rfl rfl rfl rfl rfl
        (by simp [Instruction.raiseLimit, message])
        (by simp [SignalAction.Table.behind, message]) rfl ?_
    have hframes := total_map_le (fun s => Nat.le_of_eq (instructionSteps_message
      (c := (m.callback.getD []).length) (f := m.frames.length) (t := m.actions) s)) m.frames
    rw [total, instructionSteps_message]
    simp only [instructionSteps]
    omega
  | forward => exact stepsToRest_forward_lt h hcode
  | callDetailed handler =>
    rw [execute]
    split <;> next hhandler =>
      refine stepsToRest_lt_of_total_lt hcode rfl rfl rfl rfl rfl rfl
        (by simp [Instruction.raiseLimit])
        (by simp [SignalAction.Table.behind]) rfl ?_
      simp [instructionSteps, hhandler, handlerSteps]
  | restoreDefault => exact stepsToRest_restoreDefault_lt hcode
  | raise => exact stepsToRest_raise_lt hcode
  | raiseUpTo => exact stepsToRest_raiseUpTo_lt hcode
  | endLog | endCallback | release | endHandler | restoreMask =>
    exact stepsToRest_lt_of_stay hcode rfl rfl rfl rfl rfl rfl rfl

/-- A handler takes at most what its signal was counted with. -/
theorem stepsToRest_deliver_lt (hsig : sig ∈ m.pending) :
    (m.deliver sig).stepsToRest < m.stepsToRest := by
  have htaken : signalSteps (m.callback.getD []).length m.frames.length m.actions sig + _ = _ :=
    total_erase hsig
  have hone : 1 ≤ signalSteps (m.callback.getD []).length m.frames.length m.actions sig :=
    one_le_signalSteps
  have hgone : ∀ killedBy, { m.take sig with killedBy }.stepsToRest < m.stepsToRest := fun _ =>
    stepsToRest_lt_of_busySteps_lt rfl rfl rfl (fun _ hi => .inr (.inl hi))
      (Nat.add_lt_add_left (by dsimp only [take]; omega) _)
  have hentered : ∀ call : Instruction, call.raiseLimit = 0 → m.actions.behind call = m.actions →
      instructionSteps (m.callback.getD []).length m.frames.length m.actions call + 1 <
        signalSteps (m.callback.getD []).length m.frames.length m.actions sig →
      (m.enter sig call).stepsToRest < m.stepsToRest := by
    intro call hlimit hbehind hsteps
    refine stepsToRest_lt_of_busySteps_lt rfl rfl rfl (fun i hi => ?_) ?_
    · obtain rfl | hi := List.mem_cons.mp hi
      · exact .inl hlimit
      · obtain rfl | hi := List.mem_cons.mp hi
        · exact .inl rfl
        · exact .inr (.inl hi)
    · have hmask : ∀ blocked, instructionSteps (m.callback.getD []).length m.frames.length
          m.actions (.restoreMask blocked) = 1 := fun _ => rfl
      simp only [busySteps, enter, take, codeSteps, hbehind, hmask]
      simp only [SignalAction.Table.behind]
      omega
  obtain ⟨d, hd⟩ := (m.actions sig).exists_has
  rw [deliver_of_has hd]
  generalize haction : m.actions sig = a at hd
  have hhandler (hlt : 1 < a.handler) :
      signalSteps (m.callback.getD []).length m.frames.length m.actions sig =
        handlerSteps (m.callback.getD []).length m.frames.length :=
    if_neg (haction ▸ UInt64.not_le.mpr hlt)
  cases hd with
  | byDefault => exact hgone _
  | ignored => exact hgone m.killedBy
  | plain restart hlt =>
    refine hentered _ rfl rfl ?_
    rw [hhandler hlt]
    simp only [instructionSteps, handlerSteps]
    omega
  | detailed restart hlt =>
    refine hentered _ rfl rfl ?_
    rw [hhandler hlt]
    simp only [instructionSteps, handlerSteps]
    split <;> omega

theorem actions_execute (m : CrashMachine) (i : Instruction) :
    (m.execute i).actions = m.actions.behind i := by
  cases i with
  | format line pieces =>
    obtain - | ⟨_ | _, pieces⟩ := pieces <;> rfl
  | handle | claim | runCallback | forward | callDetailed =>
    rw [execute]
    split <;> rfl
  | log | dumpBacktrace | callPlain | endLog | endCallback | release | endHandler
  | restoreMask => rfl
  | restoreDefault sig =>
    rw [execute, setAction, SignalAction.Table.behind]
    split <;> rfl
  | raise sig => exact (m.post_keeps sig _).2.2.1
  | raiseUpTo sig limit =>
    rw [execute]
    split
    · exact (post_keeps { m with raised := m.raised + 1 } sig _).2.2.1
    · rfl

theorem Settles.step (h : m.Settles) (hm : m.step = some m') : m'.Settles := by
  obtain ⟨sig, -, rfl⟩ | ⟨i, code, -, rfl⟩ := step_cases hm
  · obtain ⟨pushed, hdelivery⟩ := m.exists_delivery sig
    have hactions : (m.deliver sig).actions = m.actions := by
      obtain ⟨d, hd⟩ := (m.actions sig).exists_has
      rw [deliver_of_has hd]
      cases d <;> rfl
    exact ⟨fun sig => (congrFun hdelivery.saved_eq sig).symm ▸ h.saved_ne sig,
      hactions ▸ h.byDefault⟩
  · obtain ⟨pushed, heffect⟩ := exists_effect { m with code } i
    refine ⟨fun sig => (congrFun heffect.saved_eq sig).symm ▸ h.saved_ne sig, fun sig hsig => ?_⟩
    rw [actions_execute]
    cases i with
    | restoreDefault other =>
      unfold SignalAction.Table.behind
      dsimp only
      split
      · next hother =>
        have hne : sig ≠ other := by
          rintro rfl
          exact Bool.false_ne_true (hsig.symm.trans hother)
        rw [SignalAction.Table.set_of_ne _ _ hne]
        exact h.byDefault sig hsig
      · exact h.byDefault sig hsig
    | _ => exact h.byDefault sig hsig

theorem stepsToRest_lt (h : m.Settles) (hm : m.step = some m') :
    m'.stepsToRest < m.stepsToRest := by
  obtain ⟨sig, hsig, rfl⟩ | ⟨i, code, hcode, rfl⟩ := step_cases hm
  · exact stepsToRest_deliver_lt (of_deliverable hsig).1
  · exact stepsToRest_execute_lt h hcode

theorem step_steps_eq_none {n : Nat} (h : m.Settles) (hn : m.stepsToRest ≤ n) :
    (steps n m).step = none := by
  induction n generalizing m with
  | zero =>
    cases hstep : m.step with
    | none => exact hstep
    | some m' => exact absurd (stepsToRest_lt h hstep) (by omega)
  | succ n ih =>
    cases hstep : m.step with
    | none => simp [steps, hstep]
    | some m' =>
      have hlt := stepsToRest_lt h hstep
      rw [steps_succ_of_step hstep]
      exact ih (h.step hstep) (by omega)

/-- A program has come to rest at the end of its run, whatever its callback does, unless the crash
handler was taken for what a signal did before. -/
theorem step_run_eq_none (h : m.Settles) : m.run.step = none :=
  step_steps_eq_none h (Nat.le_refl _)

theorem load_ofAction_ne {a : SignalAction} (h : a.handler ≠ crashHandler) :
    (SavedDisposition.store (.ofAction a)).load ≠ .detailed crashHandler := by
  obtain ⟨d, hd⟩ := a.exists_has
  rw [hd.load_store]
  rintro rfl
  exact h (hd.handler_eq rfl)

theorem Settles.installOnce (h : m.Settles)
    (hactions : m.installed = false → ∀ sig, (m.actions sig).handler ≠ crashHandler) :
    m.installOnce.2.Settles := by
  unfold CrashMachine.installOnce
  split
  · exact h
  · next hnot =>
    obtain ⟨-, -, -, hmem, hothers⟩ :=
      foldl_intercept Signal.nodup_intercepted { m with installed := true }
    constructor
    · intro sig
      by_cases hsig : sig ∈ Signal.intercepted
      · rw [hmem sig hsig]
        exact load_ofAction_ne (hactions (Bool.eq_false_iff.mpr hnot) sig)
      · rw [(hothers sig hsig).1]
        exact h.saved_ne sig
    · intro sig hsig
      have hnot : sig ∉ Signal.intercepted := by
        intro hmem
        have hcatchable := (Bool.and_eq_true_iff.mp (List.mem_filter.mp hmem).2).1
        exact Bool.false_ne_true (hsig.symm.trans hcatchable)
      rw [(hothers sig hnot).2]
      exact h.byDefault sig hsig

/-- A program that starts without the crash handler comes to rest whatever calls it makes. -/
theorem RegistryRun.settles {p : Profile} {m₀ : CrashMachine} {calls : List RegistryCall}
    (h₀ : m₀.Unregistered) (hsettles : m₀.Settles) (h : RegistryRun p m₀ calls m) :
    m.Settles := by
  induction h with
  | refl => exact hsettles
  | @arrive calls m _ sig payload ih =>
    obtain ⟨hsaved, -, hactions, -⟩ := m.post_keeps sig payload
    exact ⟨fun other => (congrFun hsaved other).symm ▸ ih.saved_ne other,
      hactions ▸ ih.byDefault⟩
  | compute _ registers ih => exact ⟨ih.saved_ne, ih.byDefault⟩
  | step _ hm ih => exact ih.step hm
  | @call calls m hrun call ih =>
    have hregister : Settles { m with callback := call.registers m.callback } :=
      ⟨ih.saved_ne, ih.byDefault⟩
    rw [perform_eq]
    split
    · refine hregister.installOnce fun hnot sig => ?_
      have hactions : m.actions = m₀.actions := (hrun.keepsOriginals h₀).not_installed hnot
      exact hactions ▸ h₀.hactions sig
    · exact hregister

end TraceCapture.CrashMachine
