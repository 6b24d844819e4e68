import TraceCapture.Memory.Listing

set_option autoImplicit false

namespace TraceCapture

namespace Scan

variable {σ α β : Type}

def Finds (p : Scan σ α) (P : α → Prop) : Prop := ∀ l a, (p l).1 = some a → P a

variable {P : α → Prop} {Q : β → Prop}

theorem finds_any (p : Scan σ α) : Finds p fun _ => True := fun _ _ _ => trivial

theorem finds_pure {a : α} (h : P a) : Finds (pure a : Scan σ α) P := by
  rintro l b ⟨⟩
  exact h

theorem Finds.bind {p : Scan σ α} {f : α → Scan σ β} (hp : Finds p P)
    (hf : ∀ a, P a → Finds (f a) Q) : Finds (p >>= f) Q := by
  intro l b
  rw [bind_apply]
  split
  · next a l' h => exact hf a (hp l a (by rw [h])) l' b
  · exact nofun

theorem finds_byte [Source σ] {accept : UInt8 → Option α} (h : ∀ b a, accept b = some a → P a) :
    Finds (byte (σ := σ) accept) P := by
  intro l a
  unfold byte
  split
  · next a' ha =>
    rintro ⟨⟩
    obtain ⟨b, -, hb⟩ := Option.bind_eq_some_iff.mp ha
    exact h b a hb
  · exact nofun

end Scan

namespace Listing

variable {σ : Type} [Source σ]

theorem digitValue_lt {b : UInt8} {d : Nat} (h : digitValue b = some d) : d < 16 := by
  have hle : ∀ n : UInt8, b ≤ n → b.toNat ≤ n.toNat := fun n => UInt8.le_iff_toNat_le.mp
  have hdigit := hle 57
  have hlower := hle 102
  have hupper := hle 70
  unfold digitValue at h
  grind

theorem finds_digits {value : Nat} (h : value < Word.size) :
    Scan.Finds (digits (σ := σ) value) (· < Word.size) := by
  intro l
  fun_induction digits value l with
  | case1 value l d hd hlt ih => exact ih hlt
  | case2 =>
    intro a ha
    cases ha
  | case3 =>
    rintro a ⟨⟩
    exact h

theorem finds_address : Scan.Finds (address (σ := σ)) (· < Word.size) :=
  (Scan.finds_byte fun _ _ => digitValue_lt).bind fun _ hd =>
    finds_digits (Nat.lt_trans hd (by decide))

theorem finds_region : Scan.Finds (region (σ := σ)) fun r =>
    r.start < Word.size ∧ r.stop < Word.size :=
  finds_address.bind fun _ hstart => (Scan.finds_any _).bind fun _ _ =>
    finds_address.bind fun _ hstop => (Scan.finds_any _).bind fun _ _ =>
    (Scan.finds_any _).bind fun _ _ => (Scan.finds_any _).bind fun _ _ =>
    (Scan.finds_any _).bind fun _ _ => (Scan.finds_any _).bind fun _ _ =>
    (Scan.finds_any _).bind fun _ _ => (Scan.finds_any _).bind fun _ _ =>
    Scan.finds_pure ⟨hstart, hstop⟩

theorem lt_size_of_mem_regions {l : Lookahead σ} {r : Region} (h : r ∈ regions l) :
    r.start < Word.size ∧ r.stop < Word.size := by
  fun_induction regions l with
  | case1 l first rest hfirst ih =>
    obtain rfl | h := List.mem_cons.mp h
    · exact finds_region l r (by rw [hfirst])
    · exact ih h
  | case2 => cases h

theorem lt_size_of_mem_read {s : σ} {r : Region} (h : r ∈ read s) :
    r.start < Word.size ∧ r.stop < Word.size :=
  lt_size_of_mem_regions h

end Listing

end TraceCapture
