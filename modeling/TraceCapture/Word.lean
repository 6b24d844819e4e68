import TraceCapture.Violation

set_option autoImplicit false

namespace TraceCapture.Word

def size : Nat := 18446744073709551616

def max : Nat := size - 1

def satAdd (a b : Nat) : Nat := min (a + b) max

def satMul (a b : Nat) : Nat := min (a * b) max

def add : Profile → Nat → Nat → Except Violation Nat
  | .checked, a, b => if a + b < size then .ok (a + b) else .error .additionOverflow
  | .unchecked, a, b => .ok ((a + b) % size)

def sub : Profile → Nat → Nat → Except Violation Nat
  | .checked, a, b => if b ≤ a then .ok (a - b) else .error .subtractionOverflow
  | .unchecked, a, b => .ok ((size + a - b) % size)

def mul : Profile → Nat → Nat → Except Violation Nat
  | .checked, a, b => if a * b < size then .ok (a * b) else .error .multiplicationOverflow
  | .unchecked, a, b => .ok (a * b % size)

def complement (a : Nat) : Nat := max - a

def hex (a : Nat) : String := "0x" ++ String.ofList (Nat.toDigits 16 a)

theorem add_of_lt {p : Profile} {a b : Nat} (h : a + b < size) : add p a b = .ok (a + b) := by
  cases p <;> simp [add, h, Nat.mod_eq_of_lt h]

theorem add_checked_of_le {a b : Nat} (h : size ≤ a + b) :
    add .checked a b = .error .additionOverflow :=
  if_neg (Nat.not_lt_of_le h)

/-- A sum of two 64-bit numbers wraps at most once. -/
theorem add_unchecked_of_le {a b : Nat} (ha : a < size) (hb : b < size) (h : size ≤ a + b) :
    add .unchecked a b = .ok (a + b - size) := by
  have hwrap : (a + b) % size = a + b - size := by
    rw [Nat.mod_eq_sub_mod h, Nat.mod_eq_of_lt (by omega)]
  rw [add, hwrap]

theorem sub_of_le {p : Profile} {a b : Nat} (h : b ≤ a) (ha : a < size) :
    sub p a b = .ok (a - b) := by
  cases p with
  | checked => simp [sub, h]
  | unchecked =>
    have hsum : size + a - b = a - b + size := by omega
    have hlt : a - b < size := Nat.lt_of_le_of_lt (Nat.sub_le a b) ha
    simp only [sub, hsum, Nat.add_mod_right, Nat.mod_eq_of_lt hlt]

theorem mul_of_lt {p : Profile} {a b : Nat} (h : a * b < size) : mul p a b = .ok (a * b) := by
  cases p <;> simp [mul, h, Nat.mod_eq_of_lt h]

end TraceCapture.Word
