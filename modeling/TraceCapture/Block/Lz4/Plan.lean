set_option autoImplicit false

/-!
# Planning an LZ4 block

A plan cuts data into steps, each a run of literals and a match, and a last run of literals. Matches
are looked for through a table of the positions at which four bytes were last seen. The table only
proposes positions: a match is taken where the bytes themselves agree, so what the hash function
does has no influence on what a plan stands for.
-/

namespace TraceCapture.Lz4

/-- `literals` bytes as they are, then `length` bytes repeated from `offset` bytes before. -/
structure Step where
  literals : Nat
  offset : Nat
  length : Nat
  deriving DecidableEq, Repr

def byteAt (b : ByteArray) (i : Nat) : UInt8 :=
  if h : i < b.size then b[i] else 0

def wordAt (b : ByteArray) (i : Nat) : UInt32 :=
  (byteAt b i).toUInt32 ||| (byteAt b (i + 1)).toUInt32 <<< 8 |||
    (byteAt b (i + 2)).toUInt32 <<< 16 ||| (byteAt b (i + 3)).toUInt32 <<< 24

def searchMargin : Nat := 12

/-- No match reaches into the last six bytes. -/
def matchMargin : Nat := 6

def maxOffset : Nat := 65535

def tableSize : Nat := 4096

def slot (b : ByteArray) (i : Nat) : Nat :=
  if b.size < 65535 then ((wordAt b i * 2654435761) >>> 20).toNat
  else
    let five := (wordAt b i).toUInt64 ||| (byteAt b (i + 4)).toUInt64 <<< 32
    (((five <<< 24) * 889523592379) >>> 52).toNat

/-- Looks for a position from `i` on whose four bytes stand at an earlier position too. The longer
the search is in vain, the larger its steps. Answers the two positions. -/
def search (b : ByteArray) (table : Array Nat) (i misses : Nat) :
    Option (Nat × Nat) × Array Nat :=
  if b.size < i + searchMargin then (none, table)
  else
    let seen := table.getD (slot b i) 0
    let table := table.setIfInBounds (slot b i) i
    if i ≤ seen + maxOffset ∧ seen < i ∧ wordAt b seen = wordAt b i then (some (i, seen), table)
    else search b table (i + (32 + misses) / 32) (misses + 1)
termination_by b.size - i
decreasing_by
  have : 0 < searchMargin := by decide
  omega

theorem search_bounds {b : ByteArray} {table : Array Nat} {i misses j seen : Nat}
    (h : (search b table i misses).1 = some (j, seen)) :
    i ≤ j ∧ j + searchMargin ≤ b.size ∧ seen < j ∧ j ≤ seen + maxOffset ∧
      wordAt b seen = wordAt b j := by
  fun_induction search b table i misses with
  | case1 => simp at h
  | case2 table i misses hi seen' table' hit =>
    simp only [Option.some.injEq, Prod.mk.injEq] at h
    obtain ⟨rfl, rfl⟩ := h
    exact ⟨Nat.le_refl _, by omega, hit.2.1, hit.1, hit.2.2⟩
  | case3 table i misses hi seen' table' miss ih =>
    have := ih h
    exact ⟨by omega, this.2⟩

def agreement (b : ByteArray) (i seen n : Nat) : Nat :=
  if i + matchMargin < b.size ∧ byteAt b i = byteAt b seen then
    agreement b (i + 1) (seen + 1) (n + 1)
  else n
termination_by b.size - i

def retreat (b : ByteArray) (start i n : Nat) : Nat → Nat
  | 0 => n
  | seen + 1 =>
      if start < i ∧ byteAt b (i - 1) = byteAt b seen then retreat b start (i - 1) (n + 1) seen
      else n

theorem le_agreement (b : ByteArray) (i seen n : Nat) : n ≤ agreement b i seen n := by
  fun_induction agreement b i seen n with
  | case1 i seen n h ih => exact Nat.le_of_succ_le ih
  | case2 => exact Nat.le_refl _

theorem retreat_le {b : ByteArray} {start i n seen : Nat} (h : start ≤ i) :
    retreat b start i n seen + start ≤ n + i := by
  induction seen generalizing i n with
  | zero => simp only [retreat]; omega
  | succ seen ih =>
    unfold retreat
    split
    · have := ih (i := i - 1) (n := n + 1) (by omega)
      omega
    · omega

/-- The steps for the bytes from `start` on, of which those before `i` are literals for sure. -/
def planFrom (b : ByteArray) (table : Array Nat) (start i : Nat) (steps : Array Step) :
    Array Step :=
  match _h : search b table i 0 with
  | (none, _) => steps
  | (some (j, seen), table) =>
    let back := retreat b start j 0 seen
    let length := agreement b (j + 4) (seen + 4) (4 + back)
    let stop := j - back + length
    let table := table.setIfInBounds (slot b (stop - 2)) (stop - 2)
    planFrom b table stop stop (steps.push ⟨j - back - start, j - seen, length⟩)
termination_by b.size - i
decreasing_by
  have := search_bounds (congrArg Prod.fst _h)
  have := le_agreement b (j + 4) (seen + 4) (4 + retreat b start j 0 seen)
  simp only [searchMargin] at *
  omega

def plan (b : ByteArray) : Array Step :=
  let table := (Array.replicate tableSize 0).setIfInBounds (slot b 0) 0
  planFrom b table 0 1 #[]

end TraceCapture.Lz4
