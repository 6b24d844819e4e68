import TraceCapture.Proofs.Reader.Load

set_option autoImplicit false

namespace TraceCapture

namespace Reader

variable {σ : Type}

inductive ReadCall where
  | bytes (n : Nat)
  | byte

def ReadCall.size : ReadCall → Nat
  | bytes n => n
  | byte => 1

def ReadCall.perform [Source σ] (r : Reader σ) : ReadCall → Outcome TraceError ByteArray × Reader σ
  | bytes n => r.readBytes n
  | byte =>
    let (b, r) := r.readByte
    (b.map fun b => ByteArray.mk b.toArray, r)

def deliver [Source σ] (r : Reader σ) :
    List ReadCall → Outcome TraceError (List ByteArray) × Reader σ
  | [] => (.ok [], r)
  | call :: calls =>
    match call.perform r with
    | (.ok b, r) =>
      let (bs, r) := r.deliver calls
      (bs.map (b :: ·), r)
    | (.error e, r) => (.error e, r)
    | (.panicked v, r) => (.panicked v, r)

theorem extract_cursor_of_available_eq_zero {r : Reader σ} (h : r.available = 0) :
    r.cache.extract r.cursor r.cache.size = .empty := by
  rw [ByteArray.extract_eq_empty_iff, Nat.min_self]
  exact Nat.sub_eq_zero_iff_le.mp h

theorem extract_step {r : Reader σ} {k : Nat} (hk : k ≤ r.available) (tail : ByteArray) :
    (r.cache.extract r.cursor r.cache.size ++ tail).extract k
        (r.cache.extract r.cursor r.cache.size ++ tail).size =
      r.cache.extract (r.cursor + k) r.cache.size ++ tail ∧
    (r.cache.extract r.cursor r.cache.size ++ tail).extract 0 k =
      r.cache.extract r.cursor (r.cursor + k) := by
  have hk' : k ≤ (r.cache.extract r.cursor r.cache.size).size := by
    rw [ByteArray.size_extract, Nat.min_self]
    exact hk
  unfold available at hk
  constructor
  · rw [Bytes.extract_append_rest _ hk', Bytes.extract_rest_rest]
  · rw [Bytes.extract_append_left _ hk', ByteArray.extract_extract, Nat.add_zero]
    exact Bytes.extract_stop_congr (by omega)

theorem size_extract_cached {r : Reader σ} {k : Nat} (hk : k ≤ r.available) :
    (r.cache.extract r.cursor (r.cursor + k)).size = k := by
  rw [ByteArray.size_extract]
  unfold available at hk
  omega

section

variable [Source σ]

/-- A load that fails leaves the reader before the entry that it was to load, as any load does. -/
theorem currentOffset_loadChunk (r : Reader σ) (skip : Nat) :
    (r.loadChunk skip).2.currentOffset = ⟨r.position, 0⟩ := by
  rw [loadChunk_eq]
  unfold settle cacheBlock
  dsimp only
  repeat' split
  all_goals rfl

theorem readOn_eq (r : Reader σ) (n : Nat) (out : ByteArray) :
    r.readOn n out =
      if n ≤ out.size then (.ok out, r)
      else if r.available = 0 then
        if r.exhausted then (.ok out, r)
        else
          match r.loadChunk 0 with
          | (.ok (), r') => r'.readOn n out
          | (.error e, r') => (.error e, r')
          | (.panicked v, r') => (.panicked v, r')
      else
        let stop := r.cursor + min r.available (n - out.size)
        { r with cursor := stop }.readOn n (out ++ r.cache.extract r.cursor stop) := by
  rw [readOn]
  split
  · rfl
  · split
    · split
      · rfl
      · split <;> next hload => simp only [hload]
    · rfl

theorem readOn_step (r : Reader σ) (n : Nat) (out : ByteArray) :
    let stop := r.cursor + min r.available (n - out.size)
    r.readOn n out = { r with cursor := stop }.readOn n (out ++ r.cache.extract r.cursor stop) := by
  dsimp only
  by_cases h0 : min r.available (n - out.size) = 0
  · rw [h0, Nat.add_zero, ByteArray.extract_same, ByteArray.append_empty]
  · conv => lhs; rw [readOn_eq]
    rw [if_neg (by omega), if_neg (by omega)]

theorem skipOn_eq (r : Reader σ) (n : Nat) :
    r.skipOn n =
      let step := min r.available n
      let stepped := { r with cursor := r.cursor + step }
      if n ≤ step then (.ok (), stepped)
      else if r.exhausted then (.ok (), stepped)
      else
        match stepped.loadChunk (n - step) with
        | (.ok (), r') => r'.skipOn (n - step)
        | (.error e, r') => (.error e, r')
        | (.panicked v, r') => (.panicked v, r') := by
  rw [skipOn]
  dsimp only
  split
  · rfl
  · split
    · rfl
    · split <;> next hload => simp only [hload]

theorem readOn_of_load_failed {r r' : Reader σ} {n : Nat} {out : ByteArray}
    {o : Outcome TraceError Unit} (hn : out.size < n) (h0 : r.available = 0)
    (hr : r.exhausted = false) (h : r.loadChunk 0 = (o, r')) (ho : o ≠ .ok ()) :
    r.readOn n out = (o.map fun _ => .empty, r') := by
  have hlive : ¬ r.exhausted = true := Bool.eq_false_iff.mp hr
  rw [readOn_eq, if_neg (Nat.not_le_of_lt hn), if_pos h0, if_neg hlive, h]
  cases o with
  | ok => exact absurd rfl ho
  | error | panicked => rfl

theorem readBytes_cached {r : Reader σ} {n : Nat} (hn : n ≤ r.available) :
    r.readBytes n = (.ok (r.cache.extract r.cursor (r.cursor + n)),
      { r with cursor := r.cursor + n }) := by
  obtain rfl | hpos := Nat.eq_zero_or_pos n
  · rw [readBytes, readOn, if_pos (Nat.zero_le _), Nat.add_zero, ByteArray.extract_same]
  · have hstop : min r.available (n - ByteArray.empty.size) = n := Nat.min_eq_right hn
    have hsize := size_extract_cached hn
    have hroom : ¬n ≤ ByteArray.empty.size := by
      rw [ByteArray.size_empty]
      exact Nat.not_le_of_lt hpos
    rw [readBytes, readOn, if_neg hroom, if_neg (by omega)]
    dsimp only
    rw [hstop, ByteArray.empty_append, readOn, if_pos (Nat.le_of_eq hsize.symm)]

/-- A reader that `P` holds of with some bytes delivers these, and then `ending` comes. -/
structure Feeds (P : Reader σ → ByteArray → Prop) (ending : Outcome TraceError Unit) : Prop where
  step : ∀ {r rest k}, P r rest → k ≤ r.available →
    P { r with cursor := r.cursor + k } (rest.extract k rest.size) ∧
      rest.extract 0 k = r.cache.extract r.cursor (r.cursor + k)
  finished : ∀ {r rest}, P r rest → r.available = 0 → r.exhausted = true →
    rest = .empty ∧ ending = .ok ()
  load : ∀ {r rest}, P r rest → r.available = 0 → r.exhausted = false →
    (∃ r', r.loadChunk 0 = (.ok (), r') ∧ P r' rest) ∨
      rest = .empty ∧ ending ≠ .ok () ∧ (r.loadChunk 0).1 = ending

variable {P : Reader σ → ByteArray → Prop} {ending : Outcome TraceError Unit}

theorem Feeds.available_le (hP : Feeds P ending) {r : Reader σ} {rest : ByteArray} (h : P r rest) :
    r.available ≤ rest.size := by
  have hpiece := congrArg ByteArray.size (hP.step h (Nat.le_refl r.available)).2
  simp only [ByteArray.size_extract] at hpiece
  unfold available at *
  omega

/-- Bytes that are asked for are delivered as long as there are any. -/
theorem Feeds.readOn (hP : Feeds P ending) {r : Reader σ} {rest : ByteArray} (h : P r rest)
    (n : Nat) (out : ByteArray) :
    (n - out.size ≤ rest.size ∨ ending = .ok () →
      ∃ r', r.readOn n out = (.ok (out ++ rest.extract 0 (n - out.size)), r') ∧
        P r' (rest.extract (n - out.size) rest.size) ∧
        (rest.size < n - out.size → r'.endOfData = true)) ∧
    (rest.size < n - out.size → ending ≠ .ok () →
      (r.readOn n out).1 = ending.map fun _ => .empty) := by
  fun_induction Reader.readOn r n out generalizing rest with
  | case1 r out hn =>
    have h0 : n - out.size = 0 := by omega
    rw [h0]
    refine ⟨fun _ => ⟨r, ?_, ?_, ?_⟩, fun hlt => absurd hlt (Nat.not_lt_zero _)⟩
    · rw [ByteArray.extract_same, ByteArray.append_empty]
    · rwa [ByteArray.extract_zero_size]
    · intro hlt
      exact absurd hlt (Nat.not_lt_zero _)
  | case2 r out hn h0 hr =>
    obtain ⟨rfl, hend⟩ := hP.finished h h0 hr
    have hpiece : ∀ i j, ByteArray.empty.extract i j = .empty := by
      intro i j
      apply ByteArray.extract_eq_empty_iff.mpr
      rw [ByteArray.size_empty]
      omega
    refine ⟨fun _ => ⟨r, ?_, ?_, fun _ => ?_⟩, fun _ hne => absurd hend hne⟩
    · rw [hpiece, ByteArray.append_empty]
    · rwa [hpiece]
    · rw [endOfData, hr, h0]
      rfl
  | case3 r out hn h0 hr r' hload ih =>
    rcases hP.load h h0 (Bool.eq_false_iff.mpr hr) with ⟨v, hv, hnext⟩ | ⟨-, hne, hv⟩
    · rw [hload] at hv
      cases hv
      exact ih hnext
    · rw [hload] at hv
      exact absurd hv.symm hne
  | case4 r out hn h0 hr e r' hload =>
    rcases hP.load h h0 (Bool.eq_false_iff.mpr hr) with ⟨v, hv, -⟩ | ⟨rfl, hne, hv⟩
    · rw [hload] at hv
      cases hv
    · rw [hload] at hv
      rw [← hv, ByteArray.size_empty]
      refine ⟨?_, fun _ _ => rfl⟩
      rintro (hle | hok)
      · omega
      · cases hok
  | case5 r out hn h0 hr v r' hload =>
    rcases hP.load h h0 (Bool.eq_false_iff.mpr hr) with ⟨u, hu, -⟩ | ⟨rfl, hne, hu⟩
    · rw [hload] at hu
      cases hu
    · rw [hload] at hu
      rw [← hu, ByteArray.size_empty]
      refine ⟨?_, fun _ _ => rfl⟩
      rintro (hle | hok)
      · omega
      · cases hok
  | case6 r out hn h0 stop =>
    rename_i ih
    -- what the cache hands over now and what is asked for next make up what was asked for
    obtain ⟨hnext, hpiece⟩ := hP.step h (Nat.min_le_left r.available (n - out.size))
    have hle := hP.available_le h
    have hsize : (out ++ r.cache.extract r.cursor stop).size =
        out.size + min r.available (n - out.size) := by
      rw [ByteArray.size_append, ← hpiece, ByteArray.size_extract]
      omega
    have hleft : min r.available (n - out.size) +
        (n - (out ++ r.cache.extract r.cursor stop).size) = n - out.size := by
      omega
    have hrest : (rest.extract (min r.available (n - out.size)) rest.size).size =
        rest.size - min r.available (n - out.size) := by
      rw [ByteArray.size_extract, Nat.min_self]
    obtain ⟨hok, hfail⟩ := ih hnext
    refine ⟨fun hall => ?_, fun hlt hne => hfail (by omega) hne⟩
    obtain ⟨r', hr', hrest, hend⟩ := hok (hall.imp_left (by omega))
    rw [Bytes.extract_rest_rest, hleft] at hrest
    have hcat := Bytes.extract_append_front_rest rest (min r.available (n - out.size))
      (n - (out ++ r.cache.extract r.cursor stop).size)
    rw [hleft, hpiece] at hcat
    refine ⟨r', ?_, hrest, fun hlt => hend (by omega)⟩
    rw [hr', ByteArray.append_assoc, hcat]

theorem Feeds.perform (hP : Feeds P ending) {r : Reader σ} {rest : ByteArray} (h : P r rest)
    (call : ReadCall) :
    (call.size ≤ rest.size ∨ ending = .ok () →
      ∃ r', call.perform r = (.ok (rest.extract 0 call.size), r') ∧
        P r' (rest.extract call.size rest.size) ∧
        (rest.size < call.size → r'.endOfData = true)) ∧
    (rest.size < call.size → ending ≠ .ok () →
      (call.perform r).1 = ending.map fun _ => .empty) := by
  have hread : ∀ n, r.readBytes n = r.readOn n .empty := fun _ => rfl
  cases call with
  | bytes n =>
    obtain ⟨hok, hfail⟩ := hP.readOn h n .empty
    refine ⟨fun hall => ?_, hfail⟩
    obtain ⟨r', hr', hrest⟩ := hok hall
    rw [ByteArray.empty_append] at hr'
    exact ⟨r', hr', hrest⟩
  | byte =>
    obtain ⟨hok, hfail⟩ := hP.readOn h 1 .empty
    refine ⟨fun hall => ?_, fun hlt hne => ?_⟩
    · obtain ⟨r', hr', hrest⟩ := hok hall
      rw [ByteArray.empty_append] at hr'
      refine ⟨r', ?_, hrest⟩
      have hone : (rest.extract 0 1).size ≤ 1 := by
        rw [ByteArray.size_extract]
        omega
      rw [ReadCall.perform, readByte, hread, hr']
      change (Outcome.ok (ByteArray.mk ((rest.extract 0 1).data[0]?).toArray), r') = _
      rw [Bytes.mk_head_toArray hone]
      rfl
    · have hfail' := hfail hlt hne
      change (((r.readOn 1 .empty).1.map fun b => b.data[0]?).map _) = _
      rw [hfail']
      cases ending <;> rfl

theorem Feeds.deliver (hP : Feeds P ending) {r : Reader σ} {rest : ByteArray} (h : P r rest)
    (calls : List ReadCall) :
    ((calls.map ReadCall.size).sum ≤ rest.size ∨ ending = .ok () →
      ∃ r', r.deliver calls = (.ok (Bytes.cut rest (calls.map ReadCall.size)), r') ∧
        P r' (rest.extract (calls.map ReadCall.size).sum rest.size)) ∧
    (rest.size < (calls.map ReadCall.size).sum → ending ≠ .ok () →
      (r.deliver calls).1 = ending.map fun _ => []) := by
  induction calls generalizing r rest with
  | nil =>
    refine ⟨fun _ => ⟨r, rfl, ?_⟩, fun hlt => absurd hlt (Nat.not_lt_zero _)⟩
    rwa [List.map_nil, List.sum_nil, ByteArray.extract_zero_size]
  | cons call calls ih =>
    obtain ⟨hok, hfail⟩ := hP.perform h call
    rw [List.map_cons, List.sum_cons]
    by_cases hcall : call.size ≤ rest.size ∨ ending = .ok ()
    · obtain ⟨v, hv, hnext, -⟩ := hok hcall
      have hleft : (rest.extract call.size rest.size).size = rest.size - call.size := by
        rw [ByteArray.size_extract, Nat.min_self]
      obtain ⟨hok', hfail'⟩ := ih hnext
      rw [Reader.deliver, hv]
      refine ⟨fun hall => ?_, fun hlt hne => ?_⟩
      · obtain ⟨r', hr', hrest⟩ := hok' (hall.imp_left (by omega))
        rw [Bytes.extract_rest_rest] at hrest
        refine ⟨r', ?_, hrest⟩
        dsimp only
        rw [hr']
        rfl
      · have hle := hcall.resolve_right hne
        dsimp only
        rw [hfail' (by omega) hne]
        cases ending with
        | ok => exact absurd rfl hne
        | error | panicked => rfl
    · rw [not_or] at hcall
      refine ⟨?_, fun _ hne => ?_⟩
      · rintro (hle | hdone)
        · omega
        · exact absurd hdone hcall.2
      have hone := hfail (Nat.lt_of_not_le hcall.1) hne
      rw [Reader.deliver]
      generalize call.perform r = step at hone
      obtain ⟨o, r'⟩ := step
      cases ending with
      | ok => exact absurd rfl hne
      | error | panicked =>
        cases hone
        rfl

/-- The reader has `data` to deliver: whatever calls are made, each gets the next bytes it asks
for, and a call that finds none left gets none and sees the end. -/
def Delivers (r : Reader σ) (data : ByteArray) : Prop :=
  ∀ calls : List ReadCall, ∃ r',
    r.deliver calls = (.ok (Bytes.cut data (calls.map ReadCall.size)), r') ∧
      (data.size ≤ (calls.map ReadCall.size).sum → ∀ call : ReadCall, 0 < call.size →
        ∃ r'', call.perform r' = (.ok .empty, r'') ∧ r''.endOfData = true)

theorem Feeds.delivers (hP : Feeds P (.ok ())) {r : Reader σ} {data : ByteArray} (h : P r data) :
    r.Delivers data := by
  intro calls
  obtain ⟨r', hr', hnext⟩ := (hP.deliver h calls).1 (.inr rfl)
  refine ⟨r', hr', ?_⟩
  intro hall call hpos
  rw [ByteArray.extract_eq_empty_iff.mpr (by omega)] at hnext
  obtain ⟨r'', hr'', -, hend⟩ := (hP.perform hnext call).1 (.inr rfl)
  refine ⟨r'', ?_, hend hpos⟩
  rw [hr'', ByteArray.extract_eq_empty_iff.mpr (by rw [ByteArray.size_empty]; omega)]

end

variable [LawfulSource σ]

/-- What the reader has not delivered yet: the rest of the cached chunk and the chunks behind it. -/
def Holds (r : Reader σ) (rest : ByteArray) : Prop :=
  ∃ chunks, rest = r.cache.extract r.cursor r.cache.size ++ Bytes.concat chunks ∧
    (r.exhausted = true ∧ chunks = [] ∨
      r.exhausted = false ∧ ∃ file, Source.At r.inner file r.position ∧
        r.codec.Decodes file r.position chunks)

theorem holds_loadChunk {r : Reader σ} {file : ByteArray} {chunks : List ByteArray}
    (hex : r.exhausted = false) (hat : Source.At r.inner file r.position)
    (hd : r.codec.Decodes file r.position chunks) :
    ∃ r', r.loadChunk 0 = (.ok (), r') ∧ Holds r' (Bytes.concat chunks) := by
  cases hd with
  | ends h =>
    obtain ⟨inner, bufferSize, log, hload⟩ := loadChunk_ends hat h 0
    exact ⟨_, hload, [], rfl, .inl ⟨rfl, rfl⟩⟩
  | @entry i e chunk chunks he hc rest =>
    obtain ⟨inner, hat', hload⟩ := loadChunk_entry hat he hc 0
    refine ⟨_, hload, chunks, ?_, .inr ⟨hex, file, hat', rest⟩⟩
    dsimp only
    split
    · rw [Bytes.concat, ByteArray.extract_zero_size]
    · next h0 =>
      have hempty : chunk = .empty := ByteArray.size_eq_zero_iff.mp (by omega)
      have hzeros : Bytes.zeros 0 = .empty := ByteArray.size_eq_zero_iff.mp (Bytes.size_zeros 0)
      rw [Bytes.concat, ByteArray.extract_zero_size, hempty, ByteArray.size_empty, hzeros]

theorem Holds.step {r : Reader σ} {rest : ByteArray} (h : Holds r rest) {k : Nat}
    (hk : k ≤ r.available) :
    Holds { r with cursor := r.cursor + k } (rest.extract k rest.size) ∧
      rest.extract 0 k = r.cache.extract r.cursor (r.cursor + k) := by
  obtain ⟨chunks, rfl, hnext⟩ := h
  obtain ⟨hrest, hpiece⟩ := extract_step hk (Bytes.concat chunks)
  exact ⟨⟨chunks, hrest, hnext⟩, hpiece⟩

theorem feeds_holds : Feeds (Holds (σ := σ)) (.ok ()) where
  step h hk := h.step hk
  finished := by
    rintro r rest ⟨chunks, rfl, ⟨-, rfl⟩ | ⟨hfalse, -⟩⟩ h0 hex
    · rw [extract_cursor_of_available_eq_zero h0, Bytes.concat, ByteArray.append_empty]
      exact ⟨rfl, rfl⟩
    · rw [hex] at hfalse
      cases hfalse
  load := by
    rintro r rest ⟨chunks, rfl, ⟨htrue, -⟩ | ⟨-, file, hat, hd⟩⟩ h0 hex
    · rw [hex] at htrue
      cases htrue
    · rw [extract_cursor_of_available_eq_zero h0, ByteArray.empty_append]
      exact .inl (holds_loadChunk hex hat hd)

theorem Holds.delivers {r : Reader σ} {data : ByteArray} (h : r.Holds data) : r.Delivers data :=
  feeds_holds.delivers h

def fresh (inner : σ) (codec : Codec) (fileLength : Nat) : Reader σ where
  inner
  codec
  cache := .empty
  cursor := 0
  bufferSize := 0
  chunk := magic.size
  position := magic.size
  fileLength
  exhausted := false
  decompressions := 0
  log := #[]

omit [LawfulSource σ] in
theorem start_of_fetched [Source σ] {source s t inner : σ} {codec : Codec} {length : Nat}
    {found : Fetched × σ} {r : Reader σ} (hend : Source.seekEnd source = (.ok length, s))
    (hstart : Source.seekStart s 0 = (.ok (), t))
    (hmagic : Source.readExact? t magic.size = (.ok (some magic), inner))
    (hfetched : (fresh inner codec length).fetched = found)
    (hr : (fresh inner codec length).settle 0 found = (.ok (), r)) :
    Reader.start source codec = .ok r := by
  rw [← hfetched, ← loadChunk_eq] at hr
  rw [Reader.start, hend]
  dsimp only
  rw [hstart]
  dsimp only
  rw [hmagic]
  dsimp only
  rw [if_pos rfl]
  exact congrArg (fun step => step.1.map fun _ => step.2) hr

omit [LawfulSource σ] in
theorem start_of_block [Source σ] {source s t front inner : σ} {codec : Codec}
    {fileLength length : Nat} {block chunk : ByteArray}
    (hend : Source.seekEnd source = (.ok fileLength, s))
    (hstart : Source.seekStart s 0 = (.ok (), t))
    (hmagic : Source.readExact? t magic.size = (.ok (some magic), front))
    (hfetched : Source.fetch front (codec.maxCompressedSize maxChunkSize) =
      (.block length block, inner))
    (hc : codec.Encodes block chunk) (hpos : 0 < chunk.size) :
    Reader.start source codec = .ok { fresh inner codec fileLength with
      cache := chunk, bufferSize := length, position := magic.size + lengthSize + length
      decompressions := 1 } :=
  start_of_fetched hend hstart hmagic hfetched (settle_encoded hc hpos)

/-- Opening looks at the magic and then loads the first chunk. -/
theorem start_eq {s : σ} {file : ByteArray} {i : Nat} (hat : Source.At s file i) (codec : Codec) :
    (file.extract 0 magic.size ≠ magic → start s codec = .error .invalidMagic) ∧
    (file.extract 0 magic.size = magic → ∃ inner length, Source.At inner file magic.size ∧
      start s codec = ((fresh inner codec length).loadChunk 0).1.map
        fun _ => ((fresh inner codec length).loadChunk 0).2) := by
  obtain ⟨length, t, ht, j, hat⟩ := hat.seekEnd
  obtain ⟨u, hu, hat⟩ := hat.seekStart (Nat.zero_le _)
  by_cases hsize : 0 + magic.size ≤ file.size
  · obtain ⟨v, hv, hat⟩ := Source.readExact?_inside hat hsize
    rw [Nat.zero_add] at hv hat
    have hstart : start s codec =
        if (file.extract 0 magic.size).data = magic.data then
          ((fresh v codec length).loadChunk 0).1.map fun _ => ((fresh v codec length).loadChunk 0).2
        else .error .invalidMagic := by
      rw [start, ht]
      dsimp only
      rw [hu]
      dsimp only
      rw [hv]
      rfl
    rw [hstart]
    constructor
    · intro hne
      rw [if_neg]
      exact fun h => hne (ByteArray.ext h)
    · intro heq
      rw [heq, if_pos rfl]
      exact ⟨v, length, hat, rfl⟩
  · obtain ⟨v, j, hv, -⟩ := Source.readExact?_outside hat (by decide) (Nat.lt_of_not_le hsize)
    constructor
    · intro _
      rw [start, ht]
      dsimp only
      rw [hu]
      dsimp only
      rw [hv]
    · intro heq
      have hmagic := congrArg ByteArray.size heq
      rw [ByteArray.size_extract] at hmagic
      omega

theorem start_holds {s : σ} {file : ByteArray} {i : Nat} {codec : Codec} {chunks : List ByteArray}
    (hat : Source.At s file i) (hmagic : file.extract 0 magic.size = magic)
    (hd : codec.Decodes file magic.size chunks) :
    ∃ r, start s codec = .ok r ∧ Holds r (Bytes.concat chunks) := by
  obtain ⟨inner, length, hat, hstart⟩ := (start_eq hat codec).2 hmagic
  obtain ⟨r, hr, hholds⟩ := holds_loadChunk (r := fresh inner codec length) rfl hat hd
  refine ⟨r, ?_, hholds⟩
  rw [hstart, hr]
  rfl

theorem start_first {s : σ} {file rest block chunk : ByteArray}
    {codec : Codec} (hat : Source.At s file 0)
    (hfile : file = magic ++ (Entry.written block ++ rest)) (hlt : block.size < Bytes.u32Limit)
    (hc : codec.Encodes block chunk) :
    ∃ r, start s codec = .ok r ∧ r.codec = codec ∧ Source.At r.inner file r.position ∧
      r.position = (magic ++ Entry.written block).size ∧ r.available = chunk.size ∧
      r.exhausted = false := by
  have hmagic : file.extract 0 magic.size = magic := by
    rw [hfile]
    exact ByteArray.extract_append_eq_left rfl
  obtain ⟨inner, length, hat, hstart⟩ := (start_eq hat codec).2 hmagic
  have hentry : Entry.at? file magic.size = some ⟨magic.size, block⟩ := by
    rw [hfile]
    exact Entry.at?_behind _ hc.block_pos hlt
  obtain ⟨inner', hat', hload⟩ := loadChunk_entry (r := fresh inner codec length) hat hentry hc 0
  rw [hload] at hstart
  refine ⟨_, hstart, rfl, hat', ?_, ?_, rfl⟩
  · rw [ByteArray.size_append, Entry.size_written, ← Nat.add_assoc]
    rfl
  · unfold available
    dsimp only
    split
    · rfl
    · exact Bytes.size_zeros _

end Reader

end TraceCapture
