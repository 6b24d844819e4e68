import TraceCapture.Bytes

set_option autoImplicit false

namespace TraceCapture.Bytes

theorem extract_stop_congr {b : ByteArray} {i j k : Nat} (h : min j b.size = min k b.size) :
    b.extract i j = b.extract i k := by
  apply ByteArray.ext_getElem
  · rw [ByteArray.size_extract, ByteArray.size_extract, h]
  · intro l hl hl'
    rw [ByteArray.getElem_extract, ByteArray.getElem_extract]

theorem extract_append_left {a : ByteArray} (b : ByteArray) {i j : Nat} (h : j ≤ a.size) :
    (a ++ b).extract i j = a.extract i j := by
  have hb : b.extract (i - a.size) (j - a.size) = .empty :=
    ByteArray.extract_eq_empty_iff.mpr (by omega)
  rw [ByteArray.extract_append, hb, ByteArray.append_empty]

theorem extract_of_size_le {b : ByteArray} {n : Nat} (h : b.size ≤ n) : b.extract 0 n = b := by
  rw [← Nat.max_eq_left h, ByteArray.extract_zero_max_size]

theorem extract_append_front (a b : ByteArray) (m : Nat) :
    (a ++ b).extract 0 (a.size + m) = a ++ b.extract 0 m := by
  rw [ByteArray.extract_append, extract_of_size_le (Nat.le_add_right _ _), Nat.zero_sub,
    Nat.add_sub_cancel_left]

theorem extract_front_append (a b : ByteArray) (n : Nat) :
    (a.extract 0 n ++ b).extract 0 n = (a ++ b).extract 0 n := by
  rcases Nat.le_total n a.size with h | h
  · have hsize : n ≤ (a.extract 0 n).size := by
      rw [ByteArray.size_extract]
      omega
    rw [extract_append_left b hsize, extract_append_left b h, ByteArray.extract_extract]
    exact extract_stop_congr (by omega)
  · rw [extract_of_size_le h]

theorem extract_append_rest {a : ByteArray} (b : ByteArray) {k : Nat} (h : k ≤ a.size) :
    (a ++ b).extract k (a ++ b).size = a.extract k a.size ++ b := by
  rw [ByteArray.extract_append, ByteArray.size_append, Nat.sub_eq_zero_of_le h,
    Nat.add_sub_cancel_left, ByteArray.extract_zero_size]
  congr 1
  exact extract_stop_congr (by omega)

theorem extract_append_extract_rest (b : ByteArray) {i j : Nat} (h : i ≤ j) :
    b.extract i j ++ b.extract j b.size = b.extract i b.size := by
  rw [ByteArray.extract_append_extract, Nat.min_eq_left h]
  exact extract_stop_congr (by omega)

theorem extract_rest_rest (b : ByteArray) (i j : Nat) :
    (b.extract i b.size).extract j (b.extract i b.size).size = b.extract (i + j) b.size := by
  rw [ByteArray.extract_extract, ByteArray.size_extract]
  exact extract_stop_congr (by omega)

theorem extract_append_front_rest (b : ByteArray) (i j : Nat) :
    b.extract 0 i ++ (b.extract i b.size).extract 0 j = b.extract 0 (i + j) := by
  rw [ByteArray.extract_extract, Nat.add_zero, ByteArray.extract_append_extract,
    Nat.min_eq_left (Nat.zero_le i)]
  exact extract_stop_congr (by omega)

theorem extract_append_middle (a b c : ByteArray) :
    (a ++ (b ++ c)).extract a.size (a.size + b.size) = b := by
  rw [← Nat.add_zero a.size, Nat.add_assoc, ByteArray.extract_append_size_add]
  exact ByteArray.extract_append_eq_left (Nat.zero_add _)

theorem append_push (a b : ByteArray) (x : UInt8) : a ++ b.push x = (a ++ b).push x := by
  rw [← ByteArray.append_toByteArray_singleton, ← ByteArray.append_toByteArray_singleton,
    ByteArray.append_assoc]

theorem getElem_behind {a b : ByteArray} {x : UInt8}
    (h : a.size < (a ++ ([x].toByteArray ++ b)).size) :
    (a ++ ([x].toByteArray ++ b))[a.size] = x := by
  rw [ByteArray.getElem_append_right (Nat.le_refl _)]
  simp only [Nat.sub_self]
  rw [ByteArray.getElem_append_left (by rw [List.size_toByteArray]; exact Nat.one_pos)]
  rfl

def at? (b : ByteArray) (i : Nat) : Option UInt8 := b.data[i]?

theorem ext_at? {a b : ByteArray} (h : ∀ i, at? a i = at? b i) : a = b :=
  ByteArray.ext (Array.ext_getElem? h)

theorem at?_eq_none {b : ByteArray} {i : Nat} (h : b.size ≤ i) : at? b i = none :=
  Array.getElem?_eq_none h

theorem at?_append (a b : ByteArray) (i : Nat) :
    at? (a ++ b) i = if i < a.size then at? a i else at? b (i - a.size) := by
  rw [at?, ByteArray.data_append, Array.getElem?_append]
  rfl

theorem at?_extract (b : ByteArray) (i j k : Nat) :
    at? (b.extract i j) k = if k < min j b.size - i then at? b (i + k) else none := by
  rw [at?, ByteArray.data_extract, Array.getElem?_extract]
  rfl

theorem size_overwrite {b d : ByteArray} {i : Nat} (h : i + d.size ≤ b.size) :
    (overwrite b i d).size = b.size := by
  rw [overwrite_eq]
  simp only [ByteArray.size_append, ByteArray.size_extract]
  omega

theorem at?_overwrite {b d : ByteArray} {i : Nat} (h : i + d.size ≤ b.size) (j : Nat) :
    at? (overwrite b i d) j = if i ≤ j ∧ j < i + d.size then at? d (j - i) else at? b j := by
  have hfront : (b.extract 0 i).size = i := by
    rw [ByteArray.size_extract]
    omega
  have hmid : (b.extract 0 i ++ d).size = i + d.size := by
    rw [ByteArray.size_append, hfront]
  rw [overwrite_eq, at?_append, hmid, at?_append, hfront, at?_extract, at?_extract]
  by_cases h1 : j < i
  · rw [if_pos (show j < i + d.size by omega), if_pos h1,
      if_pos (show j < min i b.size - 0 by omega), if_neg (show ¬ (i ≤ j ∧ _) by omega),
      Nat.zero_add]
  by_cases h2 : j < i + d.size
  · rw [if_pos h2, if_neg h1, if_pos (show i ≤ j ∧ _ from ⟨by omega, h2⟩)]
  rw [if_neg h2, if_neg (show ¬ (i ≤ j ∧ j < i + d.size) by omega),
    Nat.add_sub_cancel' (show i + d.size ≤ j by omega)]
  split
  · rfl
  · exact (at?_eq_none (by omega)).symm

theorem mk_head_toArray {b : ByteArray} (h : b.size ≤ 1) :
    ByteArray.mk (b.data[0]?).toArray = b := by
  obtain ⟨⟨bs⟩⟩ := b
  change bs.length ≤ 1 at h
  match bs, h with
  | [], _ => rfl
  | [_], _ => rfl

def concat : List ByteArray → ByteArray
  | [] => .empty
  | b :: bs => b ++ concat bs

theorem concat_append (as bs : List ByteArray) : concat (as ++ bs) = concat as ++ concat bs := by
  induction as with
  | nil => rw [List.nil_append, concat, ByteArray.empty_append]
  | cons a as ih => rw [List.cons_append, concat, ih, concat, ByteArray.append_assoc]

theorem size_concat {bs : List ByteArray} {n : Nat} (h : ∀ b ∈ bs, b.size = n) :
    (concat bs).size = bs.length * n := by
  induction bs with
  | nil => simp [concat]
  | cons b bs ih =>
    rw [concat, ByteArray.size_append, h b List.mem_cons_self,
      ih fun c hc => h c (List.mem_cons_of_mem _ hc), List.length_cons]
    rw [Nat.add_mul, Nat.one_mul, Nat.add_comm]

def cut (b : ByteArray) : List Nat → List ByteArray
  | [] => []
  | n :: ns => b.extract 0 n :: cut (b.extract n b.size) ns

end TraceCapture.Bytes
