import TraceCapture.Stream.Sink

set_option autoImplicit false

namespace TraceCapture.Sink

variable {σ : Type}

inductive Reaches [Sink σ] (s : σ) : σ → Prop where
  | refl : Reaches s s
  | write {t : σ} (b : ByteArray) (h : Reaches s t) : Reaches s (Sink.write t b).2
  | flush {t : σ} (h : Reaches s t) : Reaches s (Sink.flush t).2

theorem Reaches.trans [Sink σ] {s t u : σ} (h : Reaches s t) (h' : Reaches t u) :
    Reaches s u := by
  induction h' with
  | refl => exact h
  | write b _ ih => exact .write b ih
  | flush _ ih => exact .flush ih

theorem Reaches.of_write [Sink σ] {s t : σ} {b : ByteArray} {r : SinkReply}
    (h : Sink.write s b = (r, t)) : Reaches s t := by
  have hw := Reaches.refl (s := s) |>.write b
  rwa [h] at hw

/-- No write and no flush ever fails, and a write that is not interrupted takes at least a byte. -/
def FaultFree [Sink σ] (s : σ) : Prop :=
  ∀ t, Reaches s t →
    (∀ b, b.size ≠ 0 → (Sink.write t b).1 = .interrupted ∨
      ∃ n, 0 < n ∧ (Sink.write t b).1 = .accepted n) ∧
    (Sink.flush t).1 = .ok ()

theorem FaultFree.of_reaches [Sink σ] {s t : σ} (hs : FaultFree s) (h : Reaches s t) :
    FaultFree t :=
  fun u hu => hs u (h.trans hu)

theorem FaultFree.flush_ok [Sink σ] {s : σ} (hs : FaultFree s) :
    Sink.flush s = (.ok (), (Sink.flush s).2) :=
  Prod.ext (hs s .refl).2 rfl

theorem FaultFree.write_reply [Sink σ] {s t : σ} {b : ByteArray} {r : SinkReply}
    (hs : FaultFree s) (hb : b.size ≠ 0) (h : Sink.write s b = (r, t)) :
    r = .interrupted ∨ ∃ n, 0 < n ∧ r = .accepted n := by
  have hr := (hs s .refl).1 b hb
  rwa [h] at hr

theorem reaches_writeFrom [Sink σ] (s : σ) (b : ByteArray) (i : Nat) :
    Reaches s (writeFrom s b i).2 := by
  fun_induction writeFrom s b i with
  | case1 => exact .refl
  | case2 s i h t hw => exact .of_write hw
  | case3 s i h n t hw hn ih => exact (Reaches.of_write hw).trans ih
  | case4 s i h t hw ih => exact (Reaches.of_write hw).trans ih
  | case5 s i h e t hw => exact .of_write hw
  | case6 s i h v t hw => exact .of_write hw

theorem writeFrom_ok [Sink σ] {s : σ} (hs : FaultFree s) (b : ByteArray) (i : Nat) :
    (writeFrom s b i).1 = .ok () := by
  -- what is left of the buffer is never empty when it is handed to the sink
  have left : ∀ j, ¬ b.size ≤ j → (b.extract j b.size).size ≠ 0 := by
    intro j hj
    rw [ByteArray.size_extract]
    omega
  fun_induction writeFrom s b i with
  | case1 => rfl
  | case2 s i h t hw =>
    obtain hr | ⟨n, hn, hr⟩ := hs.write_reply (left i h) hw <;> cases hr
    omega
  | case3 s i h n t hw hn ih => exact ih (hs.of_reaches (.of_write hw))
  | case4 s i h t hw ih => exact ih (hs.of_reaches (.of_write hw))
  | case5 s i h e t hw => obtain hr | ⟨n, hn, hr⟩ := hs.write_reply (left i h) hw <;> cases hr
  | case6 s i h v t hw => obtain hr | ⟨n, hn, hr⟩ := hs.write_reply (left i h) hw <;> cases hr

theorem contents_writeFrom [LawfulSink σ] {s t : σ} {b : ByteArray} {i : Nat}
    (h : writeFrom s b i = (.ok (), t)) :
    LawfulSink.contents t = LawfulSink.contents s ++ b.extract i b.size := by
  fun_induction writeFrom s b i with
  | case1 s i hi =>
    cases h
    rw [ByteArray.extract_eq_empty_iff.mpr (by omega), ByteArray.append_empty]
  | case2 => cases h
  | case3 s i hi n u hw hn ih =>
    have hu := LawfulSink.contents_accepted s (b.extract i b.size) n (by rw [hw])
    rw [hw] at hu
    obtain ⟨hle, hc⟩ := hu
    rw [ByteArray.size_extract] at hle
    rw [ih h, hc, ByteArray.append_assoc, ByteArray.extract_extract, Nat.add_zero,
      Nat.min_eq_left (by omega),
      ← ByteArray.extract_eq_extract_append_extract (i + n) (by omega) (by omega)]
  | case4 s i hi u hw ih =>
    have hu := LawfulSink.contents_refused s (b.extract i b.size) (by simp [hw])
    rw [hw] at hu
    rw [ih h, hu]
  | case5 => cases h
  | case6 => cases h

theorem reaches_writeAll [Sink σ] (s : σ) (b : ByteArray) : Reaches s (writeAll s b).2 :=
  reaches_writeFrom s b 0

theorem writeAll_ok [Sink σ] {s : σ} (hs : FaultFree s) (b : ByteArray) :
    writeAll s b = (.ok (), (writeAll s b).2) :=
  Prod.ext (writeFrom_ok hs b 0) rfl

theorem contents_writeAll [LawfulSink σ] {s t : σ} {b : ByteArray}
    (h : writeAll s b = (.ok (), t)) :
    LawfulSink.contents t = LawfulSink.contents s ++ b := by
  rw [contents_writeFrom h, ByteArray.extract_zero_size]

end TraceCapture.Sink
