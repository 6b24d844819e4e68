import TraceCapture.Proofs.Trace.Decoding

set_option autoImplicit false

namespace TraceCapture

def Entry.after (file : ByteArray) (i : Nat) : Nat → Nat
  | 0 => i
  | k + 1 =>
    match at? file i with
    | none => i
    | some e => after file e.stop k

theorem magic_size_le {file : ByteArray} (h : file.extract 0 magic.size = magic) :
    magic.size ≤ file.size := by
  have hle := congrArg ByteArray.size h
  rw [ByteArray.size_extract] at hle
  omega

namespace Entry

variable {file : ByteArray} {i : Nat}

theorem after_succ {k : Nat} {e : Entry} (h : at? file (after file i k) = some e) :
    after file i (k + 1) = e.stop := by
  induction k generalizing i with
  | zero =>
    change at? file i = some e at h
    simp [after, h]
  | succ k ih =>
    rw [after] at h ⊢
    cases hat : at? file i with
    | none => simp [hat] at h
    | some first =>
      rw [hat] at h
      exact ih h

theorem after_le (hi : i ≤ file.size) (k : Nat) : after file i k ≤ file.size := by
  induction k generalizing i with
  | zero => exact hi
  | succ k ih =>
    rw [after]
    split
    · exact hi
    · next e he => exact ih (stop_le_size he).2

theorem after_writtenAll {blocks : List ByteArray}
    (h : ∀ b ∈ blocks, 0 < b.size ∧ b.size < Bytes.u32Limit) (pre rest : ByteArray) :
    after (pre ++ (writtenAll blocks ++ rest)) pre.size blocks.length =
      (pre ++ writtenAll blocks).size := by
  induction blocks generalizing pre with
  | nil => rw [writtenAll, List.map_nil, Bytes.concat, ByteArray.append_empty]; rfl
  | cons b bs ih =>
    have hb := h b List.mem_cons_self
    have hstop : (⟨pre.size, b⟩ : Entry).stop = (pre ++ written b).size := by
      rw [stop, ByteArray.size_append, size_written, Nat.add_assoc]
    rw [writtenAll_cons, List.length_cons, ByteArray.append_assoc, after,
      at?_behind _ hb.1 hb.2]
    dsimp only
    rw [hstop, ← ByteArray.append_assoc, ih fun c hc => h c (List.mem_cons_of_mem _ hc),
      ByteArray.append_assoc]

end Entry

namespace Codec

variable {codec : Codec} {file : ByteArray} {i : Nat} {chunks : List ByteArray}

theorem Decodes.drop (h : codec.Decodes file i chunks) {k : Nat} (hk : k ≤ chunks.length) :
    codec.Decodes file (Entry.after file i k) (chunks.drop k) := by
  induction h generalizing k with
  | ends h =>
    rw [Nat.eq_zero_of_le_zero hk]
    exact .ends h
  | @entry i e chunk chunks he hc rest ih =>
    cases k with
    | zero => exact .entry he hc rest
    | succ k =>
      rw [Entry.after, he]
      exact ih (Nat.le_of_succ_le_succ hk)

theorem Decodes.ends_after (h : codec.Decodes file i chunks) :
    Entry.Ends codec file (Entry.after file i chunks.length) := by
  have hend := h.drop (Nat.le_refl _)
  rw [List.drop_length] at hend
  cases hend with
  | ends h => exact h

theorem Decodes.entry_after (h : codec.Decodes file i chunks) {k : Nat} (hk : k < chunks.length) :
    ∃ e, Entry.at? file (Entry.after file i k) = some e ∧
      codec.Encodes e.block (chunks.getD k .empty) ∧ e.stop = Entry.after file i (k + 1) := by
  have hnext := h.drop (Nat.le_of_lt hk)
  rw [List.drop_eq_getElem_cons hk] at hnext
  cases hnext with
  | @entry _ e _ _ he hc _ =>
    refine ⟨e, he, ?_, (Entry.after_succ he).symm⟩
    simpa [hk] using hc

end Codec

def Bytes.startOf (chunks : List ByteArray) (k : Nat) : Nat := (Bytes.concat (chunks.take k)).size

namespace Bytes

theorem startOf_zero (chunks : List ByteArray) : startOf chunks 0 = 0 := rfl

theorem startOf_succ (chunks : List ByteArray) (k : Nat) :
    startOf chunks (k + 1) = startOf chunks k + (chunks.getD k .empty).size := by
  unfold startOf
  rcases Nat.lt_or_ge k chunks.length with hk | hk
  · rw [List.take_succ_eq_append_getElem hk, concat_append, ByteArray.size_append]
    simp [concat, hk]
  · rw [List.take_of_length_le hk, List.take_of_length_le (Nat.le_succ_of_le hk)]
    simp [hk]

theorem startOf_length (chunks : List ByteArray) :
    startOf chunks chunks.length = (concat chunks).size := by
  rw [startOf, List.take_length]

theorem startOf_le (chunks : List ByteArray) (k : Nat) :
    startOf chunks k ≤ (concat chunks).size := by
  conv => rhs; rw [← List.take_append_drop k chunks, concat_append, ByteArray.size_append]
  exact Nat.le_add_right _ _

theorem extract_zero_startOf (chunks : List ByteArray) (k : Nat) :
    (concat chunks).extract 0 (startOf chunks k) = concat (chunks.take k) := by
  conv => lhs; rw [← List.take_append_drop k chunks, concat_append]
  rw [startOf, List.take_append_drop]
  exact ByteArray.extract_append_eq_left rfl

/-- The bytes from a place in a chunk on: the rest of the chunk and the chunks behind it. -/
theorem extract_startOf (chunks : List ByteArray) (k : Nat) {w : Nat}
    (hw : w ≤ (chunks.getD k .empty).size) :
    (concat chunks).extract (startOf chunks k + w) (concat chunks).size =
      (chunks.getD k .empty).extract w (chunks.getD k .empty).size ++
        concat (chunks.drop (k + 1)) := by
  have hdrop : concat (chunks.drop k) = chunks.getD k .empty ++ concat (chunks.drop (k + 1)) := by
    rcases Nat.lt_or_ge k chunks.length with hk | hk
    · rw [List.drop_eq_getElem_cons hk, concat]
      simp [hk]
    · rw [List.drop_of_length_le hk, List.drop_of_length_le (Nat.le_succ_of_le hk)]
      simp [concat, hk]
  have hsplit : concat chunks = concat (chunks.take k) ++ concat (chunks.drop k) := by
    rw [← concat_append, List.take_append_drop]
  rw [← extract_rest_rest]
  have hrest : (concat chunks).extract (startOf chunks k) (concat chunks).size =
      concat (chunks.drop k) := by
    rw [startOf, hsplit]
    exact ByteArray.extract_append_eq_right rfl ByteArray.size_append
  rw [hrest, hdrop, extract_append_rest _ hw]

end Bytes

end TraceCapture
