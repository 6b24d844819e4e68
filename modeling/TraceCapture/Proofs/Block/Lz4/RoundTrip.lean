import TraceCapture.Block.Lz4.Encode
import TraceCapture.Proofs.Block.Lz4.Plan
import TraceCapture.Proofs.Bytes

set_option autoImplicit false

namespace TraceCapture.Lz4

theorem excess_append (a out : ByteArray) (n : Nat) :
    putLength.excess (a ++ out) n = a ++ putLength.excess out n := by
  fun_induction putLength.excess out n with
  | case1 out n h => rw [putLength.excess, if_pos h, Bytes.append_push]
  | case2 out n h ih => rw [putLength.excess, if_neg h, ← Bytes.append_push, ih]

theorem putLength_append (a out : ByteArray) (n : Nat) :
    putLength (a ++ out) n = a ++ putLength out n := by
  unfold putLength
  split
  · rfl
  · exact excess_append a out _

def lengthBytes (n : Nat) : ByteArray := putLength .empty n

theorem putLength_eq (out : ByteArray) (n : Nat) : putLength out n = out ++ lengthBytes n := by
  rw [lengthBytes, ← putLength_append, ByteArray.append_empty]

def excessBytes (n : Nat) : ByteArray := putLength.excess .empty n

theorem excessBytes_of_lt {n : Nat} (h : n < 255) : excessBytes n = [n.toUInt8].toByteArray := by
  rw [excessBytes, putLength.excess, if_pos h]
  rfl

theorem excessBytes_of_le {n : Nat} (h : 255 ≤ n) :
    excessBytes n = [255].toByteArray ++ excessBytes (n - 255) := by
  rw [excessBytes, putLength.excess, if_neg (Nat.not_lt_of_le h), excessBytes, ← excess_append,
    ByteArray.append_empty]
  rfl

theorem size_excessBytes (n : Nat) : (excessBytes n).size = n / 255 + 1 := by
  induction n using Nat.strongRecOn with
  | _ n ih =>
    by_cases h : n < 255
    · rw [excessBytes_of_lt h, List.size_toByteArray, List.length_singleton]
      omega
    · rw [excessBytes_of_le (by omega), ByteArray.size_append, ih (n - 255) (by omega),
        List.size_toByteArray, List.length_singleton]
      omega

theorem size_lengthBytes (n : Nat) :
    (lengthBytes n).size = if n < 15 then 0 else (n - 15) / 255 + 1 := by
  rw [lengthBytes, putLength]
  split
  · rfl
  · exact size_excessBytes _

def literalBytes (b : ByteArray) (i n extra : Nat) : ByteArray :=
  [(16 * min n 15 + min extra 15).toUInt8].toByteArray ++ (lengthBytes n ++ b.extract i (i + n))

theorem putLiterals_eq (out b : ByteArray) (i n extra : Nat) :
    putLiterals out b i n extra = out ++ literalBytes b i n extra := by
  rw [putLiterals, putLength_eq, ← ByteArray.append_toByteArray_singleton, literalBytes,
    ByteArray.append_assoc, ByteArray.append_assoc]

theorem size_literalBytes {b : ByteArray} {i n : Nat} (h : i + n ≤ b.size) (extra : Nat) :
    (literalBytes b i n extra).size = 1 + (lengthBytes n).size + n := by
  rw [literalBytes, ByteArray.size_append, ByteArray.size_append, ByteArray.size_extract,
    List.size_toByteArray, List.length_singleton]
  omega

def matchBytes (s : Step) : ByteArray :=
  [s.offset.toUInt8, (s.offset / 256).toUInt8].toByteArray ++ lengthBytes (s.length - minMatch)

theorem putStep_eq (out b : ByteArray) (i : Nat) (s : Step) :
    putStep out b i s =
      out ++ (literalBytes b i s.literals (s.length - minMatch) ++ matchBytes s) := by
  rw [putStep, putLiterals_eq, putLength_eq, matchBytes, ← ByteArray.append_assoc,
    ← ByteArray.append_assoc]
  congr 1
  rw [← ByteArray.append_toByteArray_singleton, ← ByteArray.append_toByteArray_singleton,
    ByteArray.append_assoc]
  rfl

def blockFrom (b : ByteArray) (i : Nat) : List Step → ByteArray
  | [] => literalBytes b i (b.size - i) 0
  | s :: steps =>
      literalBytes b i s.literals (s.length - minMatch) ++
        (matchBytes s ++ blockFrom b (s.stop i) steps)

theorem encodePlan_eq (b : ByteArray) (steps : Array Step) :
    encodePlan b steps = blockFrom b 0 steps.toList := by
  have fold : ∀ (steps : List Step) (out : ByteArray) (i : Nat),
      let r := steps.foldl (fun r s => (putStep r.1 b r.2 s, r.2 + s.literals + s.length)) (out, i)
      putLiterals r.1 b r.2 (b.size - r.2) 0 = out ++ blockFrom b i steps := by
    intro steps
    induction steps with
    | nil => exact fun out i => putLiterals_eq out b i _ 0
    | cons s steps ih =>
      intro out i
      rw [List.foldl_cons]
      refine (ih _ _).trans ?_
      rw [putStep_eq, blockFrom, ByteArray.append_assoc, ByteArray.append_assoc]
      rfl
  rw [encodePlan, ← Array.foldl_toList]
  refine (fold steps.toList .empty 0).trans ?_
  rw [ByteArray.empty_append]

theorem sumFrom_excessBytes (p : Profile) (a rest : ByteArray) {sum n : Nat}
    (h : sum + n < Bytes.u32Limit) :
    sumFrom p (a ++ (excessBytes n ++ rest)) a.size sum =
      .ok (sum + n, a.size + (excessBytes n).size) := by
  induction n using Nat.strongRecOn generalizing a sum with
  | _ n ih =>
    have inside : ∀ x : UInt8, ∀ c : ByteArray, a.size < (a ++ ([x].toByteArray ++ c)).size := by
      intro x c
      simp only [ByteArray.size_append, List.size_toByteArray, List.length_singleton]
      omega
    by_cases hn : n < 255
    · have hbyte : n.toUInt8.toNat = n := by
        rw [Nat.toUInt8_eq, UInt8.toNat_ofNat', Nat.mod_eq_of_lt (by omega)]
      have hne : n.toUInt8 ≠ 255 := by
        intro h255
        have : n = 255 := hbyte.symm.trans (congrArg UInt8.toNat h255)
        omega
      rw [excessBytes_of_lt hn, sumFrom, dif_pos (inside _ _), Bytes.getElem_behind, hbyte,
        Bytes.addU32_of_lt h]
      dsimp only
      rw [if_neg hne]
      rfl
    · have hbyte : (255 : UInt8).toNat = 255 := rfl
      have hsum : sum + 255 < Bytes.u32Limit := by omega
      rw [excessBytes_of_le (by omega), ByteArray.append_assoc, sumFrom, dif_pos (inside _ _),
        Bytes.getElem_behind, hbyte, Bytes.addU32_of_lt hsum]
      dsimp only
      have hrest := ih (n - 255) (by omega) (a ++ [255].toByteArray)
        (show sum + 255 + (n - 255) < Bytes.u32Limit by omega)
      rw [ByteArray.append_assoc, ByteArray.size_append, List.size_toByteArray,
        List.length_singleton] at hrest
      rw [if_pos rfl, hrest, ByteArray.size_append, List.size_toByteArray, List.length_singleton,
        Nat.add_assoc sum, Nat.add_sub_cancel' (by omega), Nat.add_assoc a.size]

theorem readLength_lengthBytes (p : Profile) (a rest : ByteArray) {n : Nat}
    (h : n < Bytes.u32Limit) :
    readLength p (a ++ (lengthBytes n ++ rest)) a.size (min n 15) =
      .ok (n, a.size + (lengthBytes n).size) := by
  by_cases hn : n < 15
  · have hempty : lengthBytes n = .empty := if_pos hn
    rw [readLength, Nat.min_eq_left (by omega), if_neg (by omega), hempty]
    rfl
  · have hbytes : lengthBytes n = excessBytes (n - 15) := if_neg hn
    rw [readLength, Nat.min_eq_right (by omega), if_pos rfl, hbytes,
      sumFrom_excessBytes p a rest (by omega)]
    change Outcome.ok (15 + (0 + (n - 15)), _) = _
    rw [Nat.zero_add, Nat.add_sub_cancel' (by omega)]

theorem get!_extract {b : ByteArray} {i j : Nat} (hj : j < i) (hi : i ≤ b.size) :
    (b.extract 0 i).get! j = byteAt b j := by
  have hlen : j < (b.extract 0 i).size := by
    rw [ByteArray.size_extract]
    omega
  rw [byteAt, dif_pos (by omega)]
  change (b.extract 0 i).data[j]! = _
  rw [getElem!_pos (b.extract 0 i).data j hlen]
  change (b.extract 0 i)[j] = _
  rw [ByteArray.getElem_extract]
  congr 1
  exact Nat.zero_add j

theorem push_byteAt {b : ByteArray} {i : Nat} (h : i < b.size) :
    (b.extract 0 i).push (byteAt b i) = b.extract 0 (i + 1) := by
  rw [ByteArray.extract_eq_extract_append_extract i (Nat.zero_le i) (Nat.le_succ i),
    ByteArray.extract_add_one (by omega), byteAt, dif_pos h,
    ByteArray.append_toByteArray_singleton]

theorem copyMatch_extract {b : ByteArray} {i offset n : Nat} (hpos : 0 < offset)
    (hle : offset ≤ i) (hsize : i + n ≤ b.size)
    (h : ∀ k, k < n → byteAt b (i + k) = byteAt b (i + k - offset)) :
    copyMatch (b.extract 0 i) offset n = b.extract 0 (i + n) := by
  induction n generalizing i with
  | zero => rfl
  | succ n ih =>
    have hlen : (b.extract 0 i).size = i := by
      rw [ByteArray.size_extract]
      omega
    have hget : (b.extract 0 i).get! (i - offset) = byteAt b i := by
      have h0 : byteAt b i = byteAt b (i - offset) := h 0 (Nat.succ_pos n)
      rw [h0, get!_extract (by omega) (by omega)]
    have hnext : ∀ k, k < n → byteAt b (i + 1 + k) = byteAt b (i + 1 + k - offset) := by
      intro k hk
      have := h (k + 1) (by omega)
      rwa [show i + (k + 1) = i + 1 + k by omega] at this
    rw [copyMatch, hlen, hget, push_byteAt (by omega), ih (by omega) (by omega) hnext]
    congr 1
    omega

def decodeMatch (p : Profile) (body : ByteArray) (room stop nibble : Nat) (out : ByteArray) :
    ByteArray × Outcome DecodeError Unit :=
  if body.size = stop then (out, .ok ())
  else if h : stop + 1 < body.size then
    have hstop : stop < body.size := Nat.lt_of_succ_lt h
    let offset := body[stop].toNat + 256 * body[stop + 1].toNat
    if offset = 0 then (out, .error .offsetZero)
    else
      match _match : readLength p body (stop + 2) nibble with
      | .error e => (out, .error e)
      | .panicked v => (out, .panicked v)
      | .ok (extra, k) =>
        let length := minMatch + extra
        if room < out.size + length then
          (out, .error (.outputTooSmall room (out.size + length)))
        else if out.size < offset then (out, .error .offsetOutOfBounds)
        else decodeFrom p body room k (copyMatch out offset length)
  else (out, .error .expectedByte)

theorem decodeFrom_eq {p : Profile} {body out : ByteArray} {room i n j : Nat}
    (hi : i < body.size) (hread : readLength p body (i + 1) (body[i].toNat / 16) = .ok (n, j))
    (hin : j + n ≤ body.size) (hroom : out.size + n ≤ room) :
    decodeFrom p body room i out =
      decodeMatch p body room (j + n) (body[i].toNat % 16) (out ++ body.extract j (j + n)) := by
  rw [decodeFrom, dif_pos hi]
  dsimp only
  split
  · next e he =>
    rw [hread] at he
    cases he
  · next v hv =>
    rw [hread] at hv
    cases hv
  · next literals j' h =>
    rw [hread] at h
    cases h
    rw [if_neg (Nat.not_lt_of_le hin), if_neg (Nat.not_lt_of_le hroom)]
    rfl

theorem toNat_toUInt8 {n : Nat} (h : n < 256) : n.toUInt8.toNat = n := by
  rw [Nat.toUInt8_eq, UInt8.toNat_ofNat', Nat.mod_eq_of_lt (by omega)]

theorem decodeFrom_literals (p : Profile) (a b tail : ByteArray) {room i n : Nat} (extra : Nat)
    {out : ByteArray} (hsize : i + n ≤ b.size) (hlimit : b.size < Bytes.u32Limit)
    (hroom : out.size + n ≤ room) :
    decodeFrom p (a ++ (literalBytes b i n extra ++ tail)) room a.size out =
      decodeMatch p (a ++ (literalBytes b i n extra ++ tail)) room
        (a ++ literalBytes b i n extra).size (min extra 15) (out ++ b.extract i (i + n)) := by
  have htoken := toNat_toUInt8 (show 16 * min n 15 + min extra 15 < 256 by omega)
  have hbytes := size_literalBytes hsize extra
  rw [literalBytes] at hbytes ⊢
  generalize (16 * min n 15 + min extra 15).toUInt8 = x at htoken hbytes ⊢
  have hone : (a ++ [x].toByteArray).size = a.size + 1 := by
    rw [ByteArray.size_append, List.size_toByteArray, List.length_singleton]
  have hpiece : (b.extract i (i + n)).size = n := by
    rw [ByteArray.size_extract]
    omega
  have hread := readLength_lengthBytes p (a ++ [x].toByteArray) (b.extract i (i + n) ++ tail)
    (show n < Bytes.u32Limit by omega)
  have hextract := Bytes.extract_append_middle (a ++ [x].toByteArray ++ lengthBytes n)
    (b.extract i (i + n)) tail
  rw [ByteArray.size_append, hone, hpiece] at hextract
  rw [hone] at hread
  simp only [ByteArray.append_assoc] at hread hextract hbytes ⊢
  have hall : (a ++ ([x].toByteArray ++ (lengthBytes n ++ (b.extract i (i + n) ++ tail)))).size =
      a.size + (1 + (lengthBytes n).size + n) + tail.size := by
    rw [← hbytes]
    simp only [ByteArray.size_append]
    omega
  have hi : a.size <
      (a ++ ([x].toByteArray ++ (lengthBytes n ++ (b.extract i (i + n) ++ tail)))).size := by omega
  have hdiv : x.toNat / 16 = min n 15 := by omega
  have hmod : x.toNat % 16 = min extra 15 := by omega
  have hstop : a.size + 1 + (lengthBytes n).size + n =
      (a ++ ([x].toByteArray ++ (lengthBytes n ++ b.extract i (i + n)))).size := by
    rw [ByteArray.size_append, hbytes]
    omega
  rw [decodeFrom_eq (n := n) hi (by rw [Bytes.getElem_behind, hdiv]; exact hread) (by omega) hroom,
    Bytes.getElem_behind, hmod, hextract, hstop]

theorem decodeMatch_eq {p : Profile} {body out : ByteArray} {room stop nibble offset extra k : Nat}
    (hin : stop + 1 < body.size)
    (hoffset : body[stop].toNat + 256 * body[stop + 1].toNat = offset) (hpos : 0 < offset)
    (hread : readLength p body (stop + 2) nibble = .ok (extra, k))
    (hroom : out.size + (minMatch + extra) ≤ room) (hle : offset ≤ out.size) :
    decodeMatch p body room stop nibble out =
      decodeFrom p body room k (copyMatch out offset (minMatch + extra)) := by
  rw [decodeMatch, if_neg (by omega), dif_pos hin]
  dsimp only
  rw [hoffset, if_neg (by omega)]
  split
  · next e he =>
    rw [hread] at he
    cases he
  · next v hv =>
    rw [hread] at hv
    cases hv
  · next extra' k' h =>
    rw [hread] at h
    cases h
    rw [if_neg (Nat.not_lt_of_le hroom), if_neg (Nat.not_lt_of_le hle)]

theorem offset_bytes {n : Nat} (h : n ≤ maxOffset) :
    n.toUInt8.toNat + 256 * (n / 256).toUInt8.toNat = n := by
  unfold maxOffset at h
  simp only [Nat.toUInt8_eq, UInt8.toNat_ofNat']
  omega

theorem decodeMatch_matchBytes (p : Profile) (a b tail : ByteArray) {i : Nat} {s : Step}
    (h : s.Repeats b i) (hlimit : b.size < Bytes.u32Limit) :
    decodeMatch p (a ++ (matchBytes s ++ tail)) b.size a.size (min (s.length - minMatch) 15)
        (b.extract 0 (i + s.literals)) =
      decodeFrom p (a ++ (matchBytes s ++ tail)) b.size (a ++ matchBytes s).size
        (b.extract 0 (s.stop i)) := by
  have hstop := h.stop_le
  have hmin := h.minMatch_le
  unfold Step.stop at hstop
  have hout : (b.extract 0 (i + s.literals)).size = i + s.literals := by
    rw [ByteArray.size_extract]
    omega
  have hcopy : copyMatch (b.extract 0 (i + s.literals)) s.offset
      (minMatch + (s.length - minMatch)) = b.extract 0 (s.stop i) := by
    rw [Nat.add_sub_cancel' hmin]
    exact copyMatch_extract h.offset_pos h.offset_le_index hstop h.agree
  have hoffset := offset_bytes h.offset_le
  have htwo : matchBytes s = [s.offset.toUInt8].toByteArray ++
      ([(s.offset / 256).toUInt8].toByteArray ++ lengthBytes (s.length - minMatch)) := by
    rw [matchBytes, ← ByteArray.append_assoc]
    rfl
  rw [htwo]
  generalize s.offset.toUInt8 = x at hoffset ⊢
  generalize (s.offset / 256).toUInt8 = y at hoffset ⊢
  have hone : (a ++ [x].toByteArray).size = a.size + 1 := by
    rw [ByteArray.size_append, List.size_toByteArray, List.length_singleton]
  have hsize : (a ++ [x].toByteArray ++ [y].toByteArray).size = a.size + 2 := by
    rw [ByteArray.size_append, hone, List.size_toByteArray, List.length_singleton]
  have hread := readLength_lengthBytes p (a ++ [x].toByteArray ++ [y].toByteArray) tail
    (show s.length - minMatch < Bytes.u32Limit by omega)
  have hhigh := Bytes.getElem_behind (a := a ++ [x].toByteArray) (x := y)
    (b := lengthBytes (s.length - minMatch) ++ tail)
  rw [← ByteArray.size_append, hsize] at hread
  simp only [hone] at hhigh
  simp only [ByteArray.append_assoc] at hread hhigh hsize ⊢
  have hin : a.size + 1 < (a ++ ([x].toByteArray ++ ([y].toByteArray ++
      (lengthBytes (s.length - minMatch) ++ tail)))).size := by
    simp only [ByteArray.size_append, List.size_toByteArray, List.length_singleton]
    omega
  rw [decodeMatch_eq hin (by rw [Bytes.getElem_behind, hhigh hin, hoffset]) h.offset_pos hread
    (by omega) (by rw [hout]; exact h.offset_le_index), hcopy]

/-- Decoding the block of steps that cover the rest of the data rebuilds it. -/
theorem decodeFrom_blockFrom (p : Profile) {b : ByteArray} {i : Nat} {steps : List Step}
    (h : Covers b i steps) (hlimit : b.size < Bytes.u32Limit) (a : ByteArray) :
    decodeFrom p (a ++ blockFrom b i steps) b.size a.size (b.extract 0 i) = (b, .ok ()) := by
  -- the part of the block that is read already moves into `a`
  induction h generalizing a with
  | @nil i h =>
    have hout : (b.extract 0 i).size = i := by
      rw [ByteArray.size_extract]
      omega
    have hlast := decodeFrom_literals p a b .empty 0
      (show i + (b.size - i) ≤ b.size by omega) hlimit
      (show (b.extract 0 i).size + (b.size - i) ≤ b.size by omega)
    rw [ByteArray.append_empty] at hlast
    rw [blockFrom, hlast, decodeMatch, if_pos rfl,
      ← ByteArray.extract_eq_extract_append_extract i (Nat.zero_le i) (by omega),
      Nat.add_sub_cancel' h, ByteArray.extract_zero_size]
  | @cons i s steps h _ ih =>
    have hstop := h.stop_le
    unfold Step.stop at hstop
    have hout : (b.extract 0 i).size = i := by
      rw [ByteArray.size_extract]
      omega
    rw [blockFrom, decodeFrom_literals p a b _ _ (show i + s.literals ≤ b.size by omega) hlimit
      (by omega), ← ByteArray.extract_eq_extract_append_extract i (Nat.zero_le i) (by omega),
      ← ByteArray.append_assoc, decodeMatch_matchBytes p _ b _ h hlimit, ← ByteArray.append_assoc]
    exact ih _

theorem decode_encode (p : Profile) {b : ByteArray} (h : b.size < Bytes.u32Limit) :
    decode p (encode b) b.size = (b, .ok ()) := by
  have hblock := decodeFrom_blockFrom p (plan_covers b) h .empty
  rwa [ByteArray.empty_append, ByteArray.extract_same, ← encodePlan_eq] at hblock

theorem size_matchBytes (s : Step) :
    (matchBytes s).size = 2 + (lengthBytes (s.length - minMatch)).size := by
  rw [matchBytes, ByteArray.size_append]
  rfl

/-- No sequence takes more than 1.1 bytes for each byte it stands for. -/
theorem size_blockFrom {b : ByteArray} {i : Nat} {steps : List Step} (h : Covers b i steps) :
    100 * (blockFrom b i steps).size ≤ 110 * (b.size - i) + 2000 := by
  induction h with
  | @nil i h =>
    have hlit := size_literalBytes (show i + (b.size - i) ≤ b.size by omega) 0
    have hlen := size_lengthBytes (b.size - i)
    rw [blockFrom, hlit]
    split at hlen <;> omega
  | @cons i s steps h _ ih =>
    have hstop := h.stop_le
    have hmin := h.minMatch_le
    unfold minMatch at hmin
    have hlit := size_literalBytes (b := b) (i := i) (n := s.literals)
      (by unfold Step.stop at hstop; omega) (s.length - minMatch)
    have hmatch := size_matchBytes s
    have hn := size_lengthBytes s.literals
    have hm := size_lengthBytes (s.length - minMatch)
    rw [blockFrom, ByteArray.size_append, ByteArray.size_append, hlit, hmatch]
    unfold Step.stop minMatch at *
    split at hn <;> split at hm <;> omega

theorem size_encode_le (b : ByteArray) : (encode b).size ≤ maxEncodedSize b.size := by
  have h := size_blockFrom (plan_covers b)
  rw [← encodePlan_eq] at h
  change 100 * (encode b).size ≤ _ at h
  unfold maxEncodedSize
  omega

end TraceCapture.Lz4
