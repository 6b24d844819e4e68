import TraceCapture.Proofs.Bytes
import TraceCapture.Stream.Sink

set_option autoImplicit false

namespace TraceCapture

/-- Something that bytes are written to. Unlike a sink it may interrupt a write for ever. -/
structure Outlet (σ : Type) where
  write : σ → ByteArray → SinkReply × σ
  contents : σ → ByteArray
  contents_accepted : ∀ s b n, (write s b).1 = .accepted n →
    n ≤ b.size ∧ contents (write s b).2 = contents s ++ b.extract 0 n
  contents_refused : ∀ s b, (∀ n, (write s b).1 ≠ .accepted n) →
    contents (write s b).2 = contents s

def LawfulSink.outlet (σ : Type) [LawfulSink σ] : Outlet σ :=
  ⟨Sink.write, contents, contents_accepted, contents_refused⟩

def SinkReply.endsWrite : SinkReply → Bool
  | .accepted n => n == 0
  | .interrupted => false
  | .failed _ | .panicked _ => true

inductive WriteRound (σ : Type) where
  | goesOn (s : σ) (i : Nat)
  | ended (o : Outcome IoError Unit) (s : σ)

def WriteRound.ofReply {σ : Type} (i : Nat) (s : σ) : SinkReply → WriteRound σ
  | .accepted n => if n = 0 then .ended (.error .writeZero) s else .goesOn s (i + n)
  | .interrupted => .goesOn s i
  | .failed e => .ended (.error e) s
  | .panicked v => .ended (.panicked v) s

namespace Outlet

variable {σ : Type} {outlet : Outlet σ} {b : ByteArray} {s t u : σ} {i j : Nat}
  {reply : SinkReply}

def round (outlet : Outlet σ) (b : ByteArray) (s : σ) (i : Nat) : WriteRound σ :=
  if b.size ≤ i then .ended (.ok ()) s
  else
    let (reply, t) := outlet.write s (b.extract i b.size)
    .ofReply i t reply

theorem round_of_write (hi : ¬ b.size ≤ i)
    (hw : outlet.write t (b.extract i b.size) = (reply, u)) :
    outlet.round b t i = .ofReply i u reply := by
  rw [round, if_neg hi, hw]

inductive Rounds (outlet : Outlet σ) (b : ByteArray) (s : σ) : σ → Nat → Prop where
  | start : Rounds outlet b s s 0
  | next {t u : σ} {i j : Nat} (h : Rounds outlet b s t i)
      (hround : outlet.round b t i = .goesOn u j) : Rounds outlet b s u j

/-- What a round may come to. Nothing is left, and the write is complete. Or the outlet is handed
what is left: it takes nothing and the write gives up, or the write goes on behind what it takes. -/
inductive Effect (outlet : Outlet σ) (b : ByteArray) (t : σ) (i : Nat) : WriteRound σ → Prop where
  | complete (hi : i = b.size) : Effect outlet b t i (.ended (.ok ()) t)
  | gaveUp {o : Outcome IoError Unit} {u : σ} (hi : i < b.size)
      (hreply : (outlet.write t (b.extract i b.size)).1.endsWrite = true) (ho : o ≠ .ok ())
      (hcontents : outlet.contents u = outlet.contents t) : Effect outlet b t i (.ended o u)
  | passed {u : σ} {j : Nat} (hi : i < b.size)
      (hreply : (outlet.write t (b.extract i b.size)).1.endsWrite = false) (hij : i ≤ j)
      (hj : j ≤ b.size) (hcontents : outlet.contents u = outlet.contents t ++ b.extract i j) :
      Effect outlet b t i (.goesOn u j)

theorem effect_round (hi : i ≤ b.size) : outlet.Effect b t i (outlet.round b t i) := by
  by_cases hend : b.size ≤ i
  · rw [round, if_pos hend]
    exact .complete (Nat.le_antisymm hi hend)
  have hlt := Nat.lt_of_not_le hend
  have haccepted := outlet.contents_accepted t (b.extract i b.size)
  have hrefused := outlet.contents_refused t (b.extract i b.size)
  cases hw : outlet.write t (b.extract i b.size) with
  | mk reply u =>
    have hreply : (outlet.write t (b.extract i b.size)).1 = reply := by rw [hw]
    rw [round_of_write hend hw]
    rw [hw] at haccepted hrefused
    cases reply with
    | accepted n =>
      obtain ⟨hle, hcontents⟩ := haccepted n rfl
      rw [ByteArray.size_extract] at hle
      by_cases hn : n = 0
      · subst hn
        refine .gaveUp hlt (hreply ▸ rfl) (by rintro ⟨⟩) ?_
        rw [hcontents, ByteArray.extract_same, ByteArray.append_empty]
      · rw [WriteRound.ofReply, if_neg hn]
        refine .passed hlt (hreply ▸ beq_false_of_ne hn) (by omega) (by omega) ?_
        rw [hcontents, ByteArray.extract_extract, Nat.add_zero, Nat.min_eq_left (by omega)]
    | interrupted =>
      refine .passed hlt (hreply ▸ rfl) (Nat.le_refl i) hi ?_
      rw [hrefused (by rintro n ⟨⟩), ByteArray.extract_same, ByteArray.append_empty]
    | failed | panicked =>
      exact .gaveUp hlt (hreply ▸ rfl) (by rintro ⟨⟩) (hrefused (by rintro n ⟨⟩))

/-- After every round a front of the buffer is taken. -/
theorem Rounds.contents_eq (h : outlet.Rounds b s t i) :
    i ≤ b.size ∧ outlet.contents t = outlet.contents s ++ b.extract 0 i := by
  induction h with
  | start => exact ⟨Nat.zero_le _, by rw [ByteArray.extract_same, ByteArray.append_empty]⟩
  | @next t u i j _ hround ih =>
    obtain ⟨hi, hcontents⟩ := ih
    have heffect : outlet.Effect b t i (outlet.round b t i) := effect_round hi
    rw [hround] at heffect
    cases heffect with
    | passed _ _ hij hj htaken =>
      refine ⟨hj, ?_⟩
      rw [htaken, hcontents, ByteArray.append_assoc,
        ← ByteArray.extract_eq_extract_append_extract i (Nat.zero_le i) hij]

theorem Rounds.of_ended {o : Outcome IoError Unit} (h : outlet.Rounds b s t i)
    (hround : outlet.round b t i = .ended o u) :
    outlet.contents u = outlet.contents s ++ b.extract 0 i ∧ (o = .ok () ↔ i = b.size) := by
  obtain ⟨hi, hcontents⟩ := h.contents_eq
  have heffect : outlet.Effect b t i (outlet.round b t i) := effect_round hi
  rw [hround] at heffect
  cases heffect with
  | complete hend => exact ⟨hcontents, iff_of_true rfl hend⟩
  | gaveUp hlt _ ho hnothing => exact ⟨hnothing.trans hcontents, iff_of_false ho (Nat.ne_of_lt hlt)⟩

/-- A write to a sink goes on from any of its rounds to a last one, whose outcome it has. -/
theorem Rounds.writeFrom [LawfulSink σ] (h : (LawfulSink.outlet σ).Rounds b s t i) :
    ∃ u j, (LawfulSink.outlet σ).Rounds b s u j ∧
      (LawfulSink.outlet σ).round b u j =
        .ended (Sink.writeFrom t b i).1 (Sink.writeFrom t b i).2 := by
  have hround : ∀ {t u : σ} {i : Nat} {reply : SinkReply}, ¬ b.size ≤ i →
      Sink.write t (b.extract i b.size) = (reply, u) →
      (LawfulSink.outlet σ).round b t i = .ofReply i u reply := by
    intro t u i reply hi hw
    change (LawfulSink.outlet σ).write t (b.extract i b.size) = (reply, u) at hw
    exact round_of_write hi hw
  fun_induction Sink.writeFrom t b i with
  | case1 t i hi => exact ⟨t, i, h, if_pos hi⟩
  | case2 t i hi u hw => exact ⟨t, i, h, hround hi hw⟩
  | case3 t i hi n u hw hn ih =>
    refine ih (h.next ?_)
    rw [hround hi hw, WriteRound.ofReply, if_neg hn]
  | case4 t i hi u hw ih => exact ih (h.next (hround hi hw))
  | case5 t i hi e u hw => exact ⟨t, i, h, hround hi hw⟩
  | case6 t i hi v u hw => exact ⟨t, i, h, hround hi hw⟩

end Outlet

end TraceCapture
