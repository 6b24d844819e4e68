import TraceCapture.Proofs.Trace.Places

set_option autoImplicit false

namespace TraceCapture

namespace Entry

variable {codec : Codec} {file : ByteArray} {i n : Nat}

theorem le_after (file : ByteArray) (i k : Nat) : i ≤ after file i k := by
  induction k generalizing i with
  | zero => exact Nat.le_refl _
  | succ k ih =>
    rw [after]
    split
    · exact Nat.le_refl _
    · next e he => exact Nat.le_trans (Nat.le_of_lt (stop_le_size he).1) (ih e.stop)

theorem toU32?_cut (h : i + lengthSize ≤ n) :
    Bytes.toU32? ((file.extract 0 n).extract i (i + lengthSize)) =
      Bytes.toU32? (file.extract i (i + lengthSize)) := by
  rw [ByteArray.extract_extract, Nat.zero_add, Nat.zero_add, Nat.min_eq_left h]

theorem toU32?_cut_eq_none (h : n < i + lengthSize) :
    Bytes.toU32? ((file.extract 0 n).extract i (i + lengthSize)) = none := by
  rw [Bytes.toU32?]
  apply dif_neg
  simp only [ByteArray.size_extract]
  unfold lengthSize at *
  omega

theorem at?_cut {e : Entry} (h : at? file i = some e) (hn : e.stop ≤ n) :
    at? (file.extract 0 n) i = some e := by
  obtain ⟨hstart, hlen, hne, hin, hblock⟩ := of_at? h
  have hstop : i + lengthSize + e.block.size ≤ n := by rw [← hstart]; exact hn
  have hsize : (file.extract 0 n).size = min n file.size := by
    rw [ByteArray.size_extract, Nat.sub_zero]
  unfold at?
  rw [toU32?_cut (by omega), hlen]
  dsimp only
  rw [if_neg (by omega), ByteArray.extract_extract, Nat.zero_add, Nat.zero_add,
    Nat.min_eq_left hstop, ← hblock, ← hstart]

/-- An entry that the cut falls into ends the file. -/
theorem ends_cut_entry {e : Entry} (h : at? file i = some e)
    (hmax : e.block.size ≤ codec.maxCompressedSize maxChunkSize) (hn : n < e.stop) :
    Ends codec (file.extract 0 n) i := by
  obtain ⟨hstart, hlen, -⟩ := of_at? h
  have hstop : n < i + lengthSize + e.block.size := by rw [← hstart]; exact hn
  unfold Ends
  rcases Nat.lt_or_ge n (i + lengthSize) with hcut | hcut
  · rw [toU32?_cut_eq_none hcut]
    trivial
  · rw [toU32?_cut hcut, hlen]
    refine .inr ⟨hmax, ?_⟩
    rw [ByteArray.size_extract]
    omega

theorem Ends.cut (h : Ends codec file i) (n : Nat) : Ends codec (file.extract 0 n) i := by
  unfold Ends at h ⊢
  rcases Nat.lt_or_ge n (i + lengthSize) with hcut | hcut
  · rw [toU32?_cut_eq_none hcut]
    trivial
  · rw [toU32?_cut hcut]
    split at h
    · trivial
    · rcases h with h0 | ⟨hmax, hlt⟩
      · exact .inl h0
      · refine .inr ⟨hmax, ?_⟩
        rw [ByteArray.size_extract]
        omega

end Entry

/-- What is left of a file holds the chunks whose entries end in front of the cut, at their old
places. -/
theorem Codec.Decodes.cut {codec : Codec} {file : ByteArray} {i : Nat} {chunks : List ByteArray}
    (h : codec.Decodes file i chunks) (n : Nat) :
    ∃ k ≤ chunks.length,
      (∀ j < chunks.length, Entry.after file i (j + 1) ≤ n ↔ j < k) ∧
      codec.Decodes (file.extract 0 n) i (chunks.take k) ∧
      Entry.after (file.extract 0 n) i k = Entry.after file i k := by
  induction h with
  | ends h => exact ⟨0, Nat.le_refl _, nofun, .ends (h.cut n), rfl⟩
  | @entry i e chunk chunks he hc rest ih =>
    rcases Nat.lt_or_ge n e.stop with hcut | hcut
    · -- the cut falls into this entry, wherever in it
      have hends := Entry.ends_cut_entry he hc.block_le hcut
      refine ⟨0, Nat.zero_le _, fun j _ => ?_, .ends hends, rfl⟩
      have hle := Entry.le_after file e.stop j
      simp only [Entry.after, he]
      omega
    · obtain ⟨k, hk, hinside, hd, hafter⟩ := ih
      have hat := Entry.at?_cut he hcut
      refine ⟨k + 1, Nat.succ_le_succ hk, fun j hj => ?_, .entry hat hc hd, ?_⟩
      · simp only [Entry.after, he]
        cases j with
        | zero => simp [Entry.after, hcut]
        | succ j =>
          have hnext := hinside j (Nat.lt_of_succ_lt_succ hj)
          rw [hnext]
          exact Nat.succ_lt_succ_iff.symm
      · simp only [Entry.after, hat, he, hafter]

end TraceCapture
