import TraceCapture.Trace.Codec

set_option autoImplicit false

namespace TraceCapture.Lz4

/-- The bytes from index `i` on can be added to `sum` without a panic. -/
def Summable (p : Profile) (b : ByteArray) (i sum : Nat) : Prop :=
  p = .unchecked ∨ sum + 255 * (b.size - i) < Bytes.u32Limit

theorem Summable.later {p : Profile} {b : ByteArray} {i j sum : Nat} (h : Summable p b i sum)
    (hij : i ≤ j) : Summable p b j sum := by
  refine h.imp_right fun hlt => ?_
  omega

theorem Summable.add {p : Profile} {b : ByteArray} {i sum : Nat} (h : Summable p b i sum)
    (hi : i < b.size) :
    ∃ sum', Bytes.addU32 p sum b[i].toNat = .ok sum' ∧ Summable p b (i + 1) sum' := by
  have hbyte : b[i].toNat ≤ 255 := Nat.le_of_lt_succ b[i].toNat_lt
  rcases h with rfl | hlt
  · exact ⟨_, rfl, .inl rfl⟩
  · refine ⟨_, Bytes.addU32_of_lt (by omega), .inr ?_⟩
    omega

theorem sumFrom_ne_panicked {p : Profile} {b : ByteArray} {i sum : Nat} (h : Summable p b i sum)
    (v : Violation) : sumFrom p b i sum ≠ .panicked v := by
  fun_induction sumFrom p b i sum with
  | case1 i sum hi w hw =>
    obtain ⟨sum', hsum, -⟩ := h.add hi
    rw [hsum] at hw
    cases hw
  | case2 i sum hi next hnext h255 ih =>
    obtain ⟨sum', hsum, hrest⟩ := h.add hi
    rw [hsum] at hnext
    cases hnext
    exact ih hrest
  | case3 | case4 =>
    intro h
    cases h

theorem readLength_ne_panicked {p : Profile} {b : ByteArray} {i : Nat} (h : Summable p b i 0)
    (nibble : Nat) (v : Violation) : readLength p b i nibble ≠ .panicked v := by
  unfold readLength
  split
  · have hsum := sumFrom_ne_panicked h
    cases hs : sumFrom p b i 0 with
    | ok | error =>
      intro h
      cases h
    | panicked w => exact absurd hs (hsum w)
  · intro h
    cases h

/-- Every length is read behind the token that announces it, so never at index 0. -/
theorem decodeFrom_ne_panicked {p : Profile} {body : ByteArray} (h : Summable p body 1 0)
    (room i : Nat) (out : ByteArray) (v : Violation) :
    (decodeFrom p body room i out).2 ≠ .panicked v := by
  fun_induction decodeFrom p body room i out with
  | case2 i out hi token w hw => exact absurd hw (readLength_ne_panicked (h.later (by omega)) _ _)
  | case8 i out hi token literals j hl stop hstop hroom out' hend hnext offset h0 w hw =>
    exact absurd hw (readLength_ne_panicked (h.later (by omega)) _ _)
  | case11 => assumption
  | case1 | case3 | case4 | case5 | case6 | case7 | case9 | case10 | case12 | case13 =>
    intro h
    cases h

def longestSummable : Nat := 16843014

theorem summable_of_le {p : Profile} {block : ByteArray}
    (h : p = .unchecked ∨ block.size ≤ longestSummable) :
    Summable p (block.extract 4 block.size) 1 0 := by
  refine h.imp_right fun hle => ?_
  simp only [ByteArray.size_extract, longestSummable, Bytes.u32Limit] at hle ⊢
  omega

theorem returns_lz4 {p : Profile} {limit : Nat} (h : p = .unchecked ∨ limit ≤ longestSummable) :
    (Codec.lz4 p).Returns limit := by
  intro call block room hblock v
  have hdecode := decodeFrom_ne_panicked (summable_of_le (h.imp_right (Nat.le_trans hblock))) room 0
    .empty
  change (decompress p block room).ending ≠ _
  rw [decompress]
  split
  · exact nofun
  · split
    · exact nofun
    · next hd => exact absurd (congrArg Prod.snd hd) (hdecode _)
    · split <;> exact nofun

/-- In a checked build a run of 255s up to the end panics if it brings the sum out of range. -/
theorem sumFrom_run {b : ByteArray} {i sum : Nat} (hrun : ∀ j (h : j < b.size), i ≤ j → b[j] = 255)
    (hsum : sum < Bytes.u32Limit) (hlong : Bytes.u32Limit ≤ sum + 255 * (b.size - i)) :
    sumFrom .checked b i sum = .panicked .additionOverflow := by
  fun_induction sumFrom .checked b i sum with
  | case1 i sum hi w hw =>
    unfold Bytes.addU32 at hw
    dsimp only at hw
    split at hw <;> cases hw
    rfl
  | case2 i sum hi next hnext h255 ih =>
    rw [h255] at hnext
    unfold Bytes.addU32 at hnext
    dsimp only at hnext
    split at hnext <;> cases hnext
    next hlt =>
    have hbyte : (255 : UInt8).toNat = 255 := rfl
    exact ih (fun j h hj => hrun j h (by omega)) hlt (by omega)
  | case3 i sum hi next hnext h255 => exact absurd (hrun i hi (Nat.le_refl i)) h255
  | case4 i sum hi => omega

def endlessLiteral (n : Nat) : ByteArray := ⟨#[0xf0] ++ Array.replicate n 255⟩

@[simp] theorem size_endlessLiteral (n : Nat) : (endlessLiteral n).size = 1 + n := by
  simp [endlessLiteral, ← ByteArray.size_data]

theorem getElem_endlessLiteral {n j : Nat} (h : j < (endlessLiteral n).size) :
    (endlessLiteral n)[j] = if j = 0 then 0xf0 else 255 := by
  rw [ByteArray.getElem_eq_getElem_data]
  cases j with
  | zero => exact Array.getElem_append_left Nat.one_pos
  | succ j =>
    refine (Array.getElem_append_right ?_).trans (Array.getElem_replicate _)
    exact Nat.le_add_left 1 j

theorem decode_endlessLiteral {n : Nat} (hn : Bytes.u32Limit ≤ 255 * n) (room : Nat) :
    decode .checked (endlessLiteral n) room = (.empty, .panicked .additionOverflow) := by
  have hpos : 0 < (endlessLiteral n).size := by
    rw [size_endlessLiteral]
    omega
  have hsum : sumFrom .checked (endlessLiteral n) 1 0 = .panicked .additionOverflow := by
    apply sumFrom_run
    · intro j hj hle
      rw [getElem_endlessLiteral hj, if_neg (Nat.ne_of_gt hle)]
    · decide
    · rw [size_endlessLiteral]
      omega
  have htoken : (endlessLiteral n)[0].toNat / 16 = 15 := by
    rw [getElem_endlessLiteral hpos]
    rfl
  have hlength : readLength .checked (endlessLiteral n) (0 + 1) ((endlessLiteral n)[0].toNat / 16) =
      .panicked .additionOverflow := by
    rw [readLength, if_pos htoken, hsum]
    rfl
  rw [decode, decodeFrom, dif_pos hpos]
  dsimp only
  split
  · next hl =>
    rw [hlength] at hl
    cases hl
  · next hl =>
    rw [hlength] at hl
    cases hl
    rfl
  · next hl =>
    rw [hlength] at hl
    cases hl

def endlessBlock (n : Nat) : ByteArray := Bytes.ofU32 1 ++ endlessLiteral n

@[simp] theorem size_endlessBlock (n : Nat) : (endlessBlock n).size = n + 5 := by
  rw [endlessBlock, ByteArray.size_append, Bytes.size_ofU32, size_endlessLiteral]
  omega

theorem decompressedSize_endlessBlock (p : Profile) (n : Nat) :
    (Codec.lz4 p).decompressedSize (endlessBlock n) = .ok 1 := by
  change sizeOfBlock .blockWithoutSize (endlessBlock n) = _
  rw [sizeOfBlock, endlessBlock, Bytes.toU32?_ofU32_append (by decide)]

theorem decompress_endlessBlock {n : Nat} (hn : Bytes.u32Limit ≤ 255 * n) (call room : Nat) :
    (Codec.lz4 .checked).decompress call (endlessBlock n) room =
      ⟨.empty, .panicked .additionOverflow⟩ := by
  have hsize : ¬ (endlessBlock n).size < 4 := by
    rw [size_endlessBlock]
    omega
  have hbody : (endlessBlock n).extract 4 (endlessBlock n).size = endlessLiteral n :=
    ByteArray.extract_append_eq_right rfl ByteArray.size_append
  change decompress .checked (endlessBlock n) room = _
  rw [decompress, if_neg hsize, hbody, decode_endlessLiteral hn]

end TraceCapture.Lz4
