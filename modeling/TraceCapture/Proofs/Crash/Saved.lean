import TraceCapture.Crash.Machine

set_option autoImplicit false

namespace TraceCapture

/-- Signals with this action have this disposition. -/
inductive SignalAction.Has : SignalAction → Disposition → Prop
  | byDefault (detailed restart : Bool) : Has ⟨0, detailed, restart⟩ .byDefault
  | ignored (detailed restart : Bool) : Has ⟨1, detailed, restart⟩ .ignored
  | plain {handler : UInt64} (restart : Bool) (h : 1 < handler) :
      Has ⟨handler, false, restart⟩ (.plain handler)
  | detailed {handler : UInt64} (restart : Bool) (h : 1 < handler) :
      Has ⟨handler, true, restart⟩ (.detailed handler)

namespace SignalAction

variable {a : SignalAction} {d other : Disposition}

theorem word_cases (w : UInt64) : w = 0 ∨ w = 1 ∨ 1 < w := by
  by_cases h : 1 < w
  · exact .inr (.inr h)
  · have hle : w.toNat ≤ 1 := Nat.le_of_not_lt h
    obtain hw | hw := Nat.le_one_iff_eq_zero_or_eq_one.mp hle
    · exact .inl (UInt64.toNat_inj.mp hw)
    · exact .inr (.inl (UInt64.toNat_inj.mp hw))

theorem ne_of_one_lt {w : UInt64} (h : 1 < w) : w ≠ 0 ∧ w ≠ 1 := by
  constructor <;> rintro rfl <;> simp at h

theorem exists_has (a : SignalAction) : ∃ d, a.Has d := by
  obtain ⟨handler, detailed, restart⟩ := a
  obtain rfl | rfl | h := word_cases handler
  · exact ⟨_, .byDefault detailed restart⟩
  · exact ⟨_, .ignored detailed restart⟩
  · cases detailed with
    | true => exact ⟨_, .detailed restart h⟩
    | false => exact ⟨_, .plain restart h⟩

/-- The words of a disposition that a signal has are loaded as that disposition. A handler at the
address 0 would not be, but no signal has one. -/
theorem Has.load_store (h : a.Has d) : (SavedDisposition.store (.ofAction a)).load = d := by
  cases h with
  | byDefault | ignored => rfl
  | plain restart hhandler | detailed restart hhandler =>
    obtain ⟨hzero, hone⟩ := ne_of_one_lt hhandler
    simp [Disposition.ofAction, SavedDisposition.store, SavedDisposition.load, hzero, hone]

theorem Has.unique (h : a.Has d) (h' : a.Has other) : d = other :=
  h.load_store.symm.trans h'.load_store

theorem Has.handler_eq {handler : UInt64} (h : a.Has d) (hd : d.handler? = some handler) :
    a.handler = handler := by
  cases h with
  | byDefault | ignored => cases hd
  | plain | detailed => exact Option.some.inj hd

end SignalAction

namespace CrashMachine

variable {m : CrashMachine} {sig : Signal}

def deliverAs (m : CrashMachine) (sig : Signal) : Disposition → CrashMachine
  | .byDefault => { m.take sig with killedBy := if sig.isFatal then some sig else m.killedBy }
  | .ignored => m.take sig
  | .plain handler => m.enter sig (.callPlain handler sig)
  | .detailed handler => m.enter sig (.callDetailed handler sig (m.details sig))

/-- A signal that is delivered takes the effect of the disposition that it has. -/
theorem deliver_of_has {d : Disposition} (h : (m.actions sig).Has d) :
    m.deliver sig = m.deliverAs sig d := by
  generalize haction : m.actions sig = a at h
  cases h with
  | byDefault =>
    simp only [deliver, haction, deliverAs, if_pos]
    split <;> rfl
  | ignored => simp [deliver, haction, deliverAs]
  | plain restart hhandler | detailed restart hhandler =>
    obtain ⟨hzero, hone⟩ := SignalAction.ne_of_one_lt hhandler
    simp [deliver, haction, deliverAs, hzero, hone]

end CrashMachine

end TraceCapture
