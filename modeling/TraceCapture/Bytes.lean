import TraceCapture.Violation

set_option autoImplicit false

namespace TraceCapture.Bytes

def zeros (n : Nat) : ByteArray :=
  if n = 0 then .empty
  else
    let half := zeros (n / 2)
    if n % 2 = 0 then half ++ half else (half ++ half).push 0
termination_by n

theorem data_zeros (n : Nat) : (zeros n).data = Array.replicate n 0 := by
  fun_induction zeros n with
  | case1 => rfl
  | case2 n h half even ih =>
    rw [ByteArray.data_append, ih, Array.replicate_append_replicate]
    congr 1
    omega
  | case3 n h half odd ih =>
    rw [ByteArray.data_push, ByteArray.data_append, ih, Array.replicate_append_replicate,
      ← Array.replicate_succ]
    congr 1
    omega

@[simp] theorem size_zeros (n : Nat) : (zeros n).size = n := by
  rw [← ByteArray.size_data, data_zeros, Array.size_replicate]

def bufferLimit : Nat := 9223372036854775808

def reserve (n : Nat) : Except Violation Unit :=
  if n < bufferLimit then .ok () else .error .capacityOverflow

theorem reserve_of_lt {n : Nat} (h : n < bufferLimit) : reserve n = .ok () := if_pos h

def overwrite (b : ByteArray) (i : Nat) (data : ByteArray) : ByteArray :=
  data.copySlice 0 b i data.size

theorem overwrite_eq (b : ByteArray) (i : Nat) (data : ByteArray) :
    overwrite b i data = b.extract 0 i ++ data ++ b.extract (i + data.size) b.size := by
  simp [overwrite, ByteArray.copySlice_eq_append]

/-- `b` cut or filled up with zeros to exactly `n` bytes. -/
def fit (b : ByteArray) (n : Nat) : ByteArray :=
  if b.size < n then b ++ zeros (n - b.size) else b.extract 0 n

@[simp] theorem size_fit (b : ByteArray) (n : Nat) : (fit b n).size = n := by
  unfold fit
  split <;> simp <;> omega

@[simp] theorem fit_size (b : ByteArray) : fit b b.size = b := by
  rw [fit, if_neg (Nat.lt_irrefl _), ByteArray.extract_zero_size]

def u32Limit : Nat := 4294967296

/-- A sum of two numbers in 32 bits. One that does not fit is a broken contract in a checked build
and loses its high bits in an unchecked one. -/
def addU32 : Profile → Nat → Nat → Except Violation Nat
  | .checked, a, b => if a + b < u32Limit then .ok (a + b) else .error .additionOverflow
  | .unchecked, a, b => .ok ((a + b) % u32Limit)

theorem addU32_of_lt {p : Profile} {a b : Nat} (h : a + b < u32Limit) :
    addU32 p a b = .ok (a + b) := by
  cases p <;> simp [addU32, h, Nat.mod_eq_of_lt h]

def ofU32 (n : Nat) : ByteArray :=
  ⟨#[n.toUInt8, (n / 256).toUInt8, (n / 65536).toUInt8, (n / 16777216).toUInt8]⟩

def toU32? (b : ByteArray) : Option Nat :=
  if h : 4 ≤ b.size then
    some (b[0].toNat + 256 * b[1].toNat + 65536 * b[2].toNat + 16777216 * b[3].toNat)
  else none

@[simp] theorem size_ofU32 (n : Nat) : (ofU32 n).size = 4 := rfl

theorem toU32?_ofU32_append {n : Nat} (h : n < u32Limit) (rest : ByteArray) :
    toU32? (ofU32 n ++ rest) = some n := by
  have hs : 4 ≤ (ofU32 n ++ rest).size := by simp
  simp only [toU32?, hs, ↓reduceDIte, Option.some.injEq]
  repeat rw [ByteArray.getElem_append_left (by simp)]
  change n.toUInt8.toNat + 256 * (n / 256).toUInt8.toNat + 65536 * (n / 65536).toUInt8.toNat +
    16777216 * (n / 16777216).toUInt8.toNat = n
  simp only [Nat.toUInt8_eq, UInt8.toNat_ofNat', u32Limit] at h ⊢
  omega

end TraceCapture.Bytes
