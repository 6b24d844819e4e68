import TraceCapture.Proofs.Trace.Cut
import TraceCapture.Proofs.Writer.File
import TraceCapture.Proofs.Writer.Steps

set_option autoImplicit false

/-!
# Writing to a sink that fails

A chunk that could not be written stays staged, but the sink may have taken the front of its entry.
The position does not count this front, and the next try puts the whole entry behind it. `Kept` is
what every call keeps, and `Whole` says that nothing but entries is in the sink.
-/

namespace TraceCapture

open LawfulSink

/-- A write that fails leaves a front of what it was given. -/
theorem Sink.contents_writeFrom_failed {σ : Type} [LawfulSink σ] {s t : σ} {b : ByteArray} {i : Nat}
    {o : Outcome IoError Unit} (h : writeFrom s b i = (o, t)) (ho : o ≠ .ok ()) :
    ∃ j, i ≤ j ∧ j < b.size ∧ contents t = contents s ++ b.extract i j := by
  -- a write that is refused at once leaves the empty front
  have nothing : ∀ {i : Nat} {s u : σ}, ¬ b.size ≤ i → contents u = contents s →
      ∃ j, i ≤ j ∧ j < b.size ∧ contents u = contents s ++ b.extract i j := by
    intro i s u hi hu
    refine ⟨i, Nat.le_refl _, Nat.lt_of_not_le hi, ?_⟩
    rw [hu, ByteArray.extract_same, ByteArray.append_empty]
  fun_induction writeFrom s b i with
  | case1 s i hi =>
    cases h
    exact absurd rfl ho
  | case2 s i hi u hw =>
    cases h
    obtain ⟨-, hc⟩ := contents_accepted s (b.extract i b.size) 0 (by rw [hw])
    rw [hw, ByteArray.extract_same, ByteArray.append_empty] at hc
    exact nothing hi hc
  | case3 s i hi n u hw hn ih =>
    obtain ⟨hle, hc⟩ := contents_accepted s (b.extract i b.size) n (by rw [hw])
    rw [hw] at hc
    rw [ByteArray.size_extract] at hle
    obtain ⟨j, hij, hj, ht⟩ := ih h
    refine ⟨j, by omega, hj, ?_⟩
    rw [ht, hc, ByteArray.append_assoc, ByteArray.extract_extract, Nat.add_zero,
      Nat.min_eq_left (by omega),
      ← ByteArray.extract_eq_extract_append_extract (i + n) (by omega) (by omega)]
  | case4 s i hi u hw ih =>
    have hc := contents_refused s (b.extract i b.size) (by simp [hw])
    rw [hw] at hc
    rw [← hc]
    exact ih h
  | case5 s i hi e u hw | case6 s i hi v u hw =>
    cases h
    have hc := contents_refused s (b.extract i b.size) (by simp [hw])
    rw [hw] at hc
    exact nothing hi hc

theorem Entry.ends_front {codec : Codec} {block : ByteArray} (hpos : 0 < block.size)
    (hmax : block.size ≤ codec.maxCompressedSize maxChunkSize)
    (hlimit : block.size < Bytes.u32Limit) {m : Nat} (hm : m < (written block).size)
    (pre : ByteArray) :
    Ends codec (pre ++ (written block).extract 0 m) pre.size := by
  have hat : at? (pre ++ (written block ++ .empty)) pre.size = some ⟨pre.size, block⟩ :=
    at?_behind .empty hpos hlimit
  have hcut : (pre ++ (written block ++ .empty)).extract 0 (pre.size + m) =
      pre ++ (written block).extract 0 m := by
    rw [ByteArray.append_empty, Bytes.extract_append_front]
  rw [size_written] at hm
  have hends := ends_cut_entry (n := pre.size + m) hat hmax (by dsimp only [stop]; omega)
  rwa [hcut] at hends

namespace Writer

variable {σ : Type}

theorem contents_putEntry_failed [LawfulSink σ] {s t : σ} {block : ByteArray}
    {o : Outcome IoError Unit} (h : putEntry s block = (o, t)) (ho : o ≠ .ok ()) :
    ∃ m < (Entry.written block).size,
      contents t = contents s ++ (Entry.written block).extract 0 m := by
  unfold putEntry at h
  split at h
  · next u hu =>
    obtain ⟨j, -, hj, ht⟩ := Sink.contents_writeFrom_failed h ho
    have hfront := Bytes.extract_append_front (Bytes.ofU32 block.size) block j
    rw [Bytes.size_ofU32] at hfront
    refine ⟨lengthSize + j, by rw [Entry.size_written]; omega, ?_⟩
    rw [ht, Sink.contents_writeAll hu, ByteArray.append_assoc, Entry.written, lengthSize, hfront]
  · next hne =>
    obtain ⟨j, -, hj, ht⟩ := Sink.contents_writeFrom_failed h ho
    refine ⟨j, by rw [Entry.size_written]; exact Nat.lt_of_lt_of_le hj (Nat.le_add_right _ _), ?_⟩
    rw [ht, Entry.written, Bytes.extract_append_left _ (Nat.le_of_lt hj)]

theorem flushChunk_of_put_failed [Sink σ] {w : Writer σ} {block : ByteArray} {inner : σ}
    {cause : Outcome IoError Unit} (h0 : w.staged.size ≠ 0)
    (hblock : w.codec.compress w.compressions w.staged
      (w.codec.maxCompressedSize w.chunkSize.val) = .ok block)
    (hlimit : block.size < Bytes.u32Limit) (hput : putEntry w.inner block = (cause, inner))
    (hne : cause ≠ .ok ()) :
    w.flushChunk =
      (cause.mapError .io, { w with compressions := w.compressions + 1, inner }) := by
  rw [Writer.flushChunk, if_neg h0]
  dsimp only
  rw [hblock]
  dsimp only
  rw [if_neg (Nat.not_le.mpr hlimit), hput]
  cases cause with
  | ok => exact absurd rfl hne
  | error | panicked => rfl

/-- All that a flush of the staged bytes can do with a lawful codec: nothing if there are none, an
entry for them, or a failure of the sink. -/
theorem flushChunk_cases [Sink σ] {w : Writer σ} (hc : w.codec.Lawful)
    (hstaged : w.staged.size ≤ w.chunkSize.val) :
    w.staged.size = 0 ∧ w.flushChunk = (.ok (), w) ∨
    w.staged.size ≠ 0 ∧ ∃ block inner, w.codec.Encodes block w.staged ∧
      (putEntry w.inner block = (.ok (), inner) ∧
          w.flushChunk = (.ok (), w.putBlock block inner) ∨
        ∃ cause, putEntry w.inner block = (cause, inner) ∧ cause ≠ .ok () ∧
          w.flushChunk =
            (cause.mapError .io, { w with compressions := w.compressions + 1, inner })) := by
  by_cases h0 : w.staged.size = 0
  · exact .inl ⟨h0, flushChunk_of_empty h0⟩
  obtain ⟨block, hblock, henc, hlimit⟩ := compress_staged hc hstaged h0
  cases hput : putEntry w.inner block with
  | mk cause inner =>
    refine .inr ⟨h0, block, inner, henc, ?_⟩
    by_cases hok : cause = .ok ()
    · rw [hok] at hput
      exact .inl ⟨hput, flushChunk_of_put h0 hblock hlimit hput⟩
    · exact .inr ⟨cause, hput, hok, flushChunk_of_put_failed h0 hblock hlimit hput hok⟩

section

variable [LawfulSink σ] {codec : Codec} {w w' : Writer σ} {before given : ByteArray}

/-- The position counts every byte that the sink took behind `before`. -/
def Whole (w : Writer σ) (before : ByteArray) : Prop :=
  (contents w.inner).size = before.size + w.position

theorem whole_iff {file : ByteArray} (h : contents w.inner = before ++ file) :
    Whole w before ↔ w.position = file.size := by
  rw [Whole, h, ByteArray.size_append]
  omega

/-- What the sink took opens, and its chunks and the staged bytes are the bytes given. -/
def Legible (codec : Codec) (w : Writer σ) (before given : ByteArray) : Prop :=
  ∃ file chunks, contents w.inner = before ++ file ∧ file.extract 0 magic.size = magic ∧
    codec.Decodes file magic.size chunks ∧ Bytes.concat chunks ++ w.staged = given

/-- What holds of a writer after any calls: the position is the size of its entries, the sink took
them in full, and nothing else if it took no more bytes. -/
structure Kept (codec : Codec) (w : Writer σ) (before given : ByteArray) : Prop where
  lawful : codec.Lawful
  codec_eq : w.codec = codec
  staged_le : w.staged.size ≤ w.chunkSize.val
  entries : ∃ file blocks chunks, contents w.inner = before ++ file ∧
    List.Forall₂ codec.Encodes blocks chunks ∧ Bytes.concat chunks ++ w.staged = given ∧
    w.position = (magic ++ Entry.writtenAll blocks).size ∧ w.position ≤ file.size ∧
    (w.position = file.size → file = magic ++ Entry.writtenAll blocks)

theorem Kept.position_le (h : Kept codec w before given) :
    before.size + w.position ≤ (contents w.inner).size := by
  obtain ⟨file, blocks, chunks, hfile, -, -, -, hle, -⟩ := h.entries
  rw [hfile, ByteArray.size_append]
  omega

theorem Kept.legible (h : Kept codec w before given) (hwhole : Whole w before) :
    Legible codec w before given := by
  obtain ⟨file, blocks, chunks, hfile, henc, hgiven, -, -, heq⟩ := h.entries
  refine ⟨file, chunks, hfile, ?_, ?_, hgiven⟩ <;> rw [heq ((whole_iff hfile).mp hwhole)]
  · exact ByteArray.extract_append_eq_left rfl
  · exact Codec.decodes_writtenAll h.lawful.max_lt henc magic

theorem Kept.stage (h : Kept codec w before given) {piece : ByteArray}
    (hfit : (w.stage piece).staged.size ≤ w.chunkSize.val) :
    Kept codec (w.stage piece) before (given ++ piece) := by
  obtain ⟨file, blocks, chunks, hfile, henc, hgiven, hrest⟩ := h.entries
  refine ⟨h.lawful, h.codec_eq, hfit, file, blocks, chunks, hfile, henc, ?_, hrest⟩
  rw [← hgiven, ByteArray.append_assoc]
  rfl

theorem Kept.putBlock (h : Kept codec w before given) {block : ByteArray} {inner : σ}
    (hblock : codec.Encodes block w.staged)
    (hinner : contents inner = contents w.inner ++ Entry.written block) :
    Kept codec (w.putBlock block inner) before given ∧
      (Whole w before → Whole (w.putBlock block inner) before) := by
  obtain ⟨file, blocks, chunks, hfile, henc, hgiven, hpos, hle, heq⟩ := h.entries
  have hcontents : contents inner = before ++ (file ++ Entry.written block) := by
    rw [hinner, hfile, ByteArray.append_assoc]
  have hposition : (w.putBlock block inner).position =
      w.position + (Entry.written block).size := by
    rw [Entry.size_written, ← Nat.add_assoc]
    rfl
  constructor
  · refine ⟨h.lawful, h.codec_eq, Nat.zero_le _, _, blocks ++ [block], chunks ++ [w.staged],
      hcontents, List.rel_append henc (.cons hblock .nil), ?_, ?_, ?_, ?_⟩
    · rw [← hgiven, Bytes.concat_append, Bytes.concat, Bytes.concat, ByteArray.append_empty]
      exact ByteArray.append_empty
    · rw [hposition, hpos, Entry.writtenAll_concat]
      simp only [ByteArray.size_append, Nat.add_assoc]
    · rw [hposition, ByteArray.size_append]
      exact Nat.add_le_add_right hle _
    · rw [hposition, ByteArray.size_append, Entry.writtenAll_concat, ← ByteArray.append_assoc]
      intro hsize
      rw [heq (Nat.add_right_cancel hsize)]
  · rw [whole_iff hfile, whole_iff (w := w.putBlock block inner) hcontents, hposition,
      ByteArray.size_append]
    exact congrArg (· + _)

/-- The sink took a front of the entry, which is read as the end if it is the first such front. -/
theorem Kept.putFront (h : Kept codec w before given) {block : ByteArray} {inner : σ} {m : Nat}
    (hblock : codec.Encodes block w.staged) (hm : m < (Entry.written block).size)
    (hinner : contents inner = contents w.inner ++ (Entry.written block).extract 0 m) (n : Nat) :
    Kept codec { w with compressions := n, inner } before given ∧
      (Whole w before → Legible codec { w with compressions := n, inner } before given) := by
  obtain ⟨file, blocks, chunks, hfile, henc, hgiven, hpos, hle, heq⟩ := h.entries
  have hcontents : contents inner = before ++ (file ++ (Entry.written block).extract 0 m) := by
    rw [hinner, hfile, ByteArray.append_assoc]
  constructor
  · refine ⟨h.lawful, h.codec_eq, h.staged_le, _, blocks, chunks, hcontents, henc, hgiven, hpos,
      ?_, ?_⟩
    · rw [ByteArray.size_append]
      exact Nat.le_trans hle (Nat.le_add_right _ _)
    · intro hsize
      dsimp only at hsize
      rw [ByteArray.size_append] at hsize
      -- the position counts all that the sink took, so this was nothing of the entry
      have hnone : (Entry.written block).extract 0 m = .empty :=
        ByteArray.size_eq_zero_iff.mp (by omega)
      rw [hnone, ByteArray.append_empty]
      exact heq (by omega)
  · intro hwhole
    refine ⟨_, chunks, hcontents, ?_, ?_, hgiven⟩ <;>
      rw [heq ((whole_iff hfile).mp hwhole), ByteArray.append_assoc]
    · exact ByteArray.extract_append_eq_left rfl
    · exact Codec.decodes_writtenAll_append h.lawful.max_lt henc (Entry.ends_front hblock.block_pos
        hblock.block_le (Nat.lt_of_le_of_lt hblock.block_le h.lawful.max_lt) hm) magic

theorem Kept.flushChunk (h : Kept codec w before given) {o : Outcome TraceError Unit}
    (hw : w.flushChunk = (o, w')) :
    Kept codec w' before given ∧ (o = .ok () → w'.staged = .empty) ∧
      (Whole w before → Legible codec w' before given ∧ (o = .ok () → Whole w' before)) := by
  obtain rfl := h.codec_eq
  rcases flushChunk_cases h.lawful h.staged_le with
    ⟨h0, hflush⟩ | ⟨h0, block, inner, hblock, ⟨hput, hflush⟩ | ⟨cause, hput, hne, hflush⟩⟩
  · rw [hflush] at hw
    cases hw
    exact ⟨h, fun _ => ByteArray.size_eq_zero_iff.mp h0, fun hwhole =>
      ⟨h.legible hwhole, fun _ => hwhole⟩⟩
  · rw [hflush] at hw
    cases hw
    obtain ⟨hkept, hnext⟩ := h.putBlock hblock (contents_putEntry hput)
    exact ⟨hkept, fun _ => rfl, fun hwhole =>
      ⟨hkept.legible (hnext hwhole), fun _ => hnext hwhole⟩⟩
  · rw [hflush] at hw
    cases hw
    obtain ⟨m, hm, hinner⟩ := contents_putEntry_failed hput hne
    obtain ⟨hkept, hlegible⟩ := h.putFront hblock hm hinner (w.compressions + 1)
    have ho : cause.mapError TraceError.io ≠ .ok () := by
      intro ho
      cases cause with
      | ok => exact hne rfl
      | error | panicked => cases ho
    exact ⟨hkept, fun hok => absurd hok ho, fun hwhole =>
      ⟨hlegible hwhole, fun hok => absurd hok ho⟩⟩

/-- An append that fails took a front of its bytes; the chunk that could not be written is among
those that are staged. -/
theorem Kept.appendFrom (h : Kept codec w before given) {data : ByteArray} {i : Nat}
    (hi : i ≤ data.size) {o : Outcome TraceError Unit} (hw : w.appendFrom data i = (o, w')) :
    ∃ m, i ≤ m ∧ m ≤ data.size ∧ (o = .ok () → m = data.size) ∧
      Kept codec w' before (given ++ data.extract i m) ∧
      (Whole w before →
        Legible codec w' before (given ++ data.extract i m) ∧ (o = .ok () → Whole w' before)) := by
  fun_induction Writer.appendFrom w data i generalizing given with
  | case1 w i hend =>
    cases hw
    refine ⟨data.size, hi, Nat.le_refl _, fun _ => rfl, ?_⟩
    rw [ByteArray.extract_eq_empty_iff.mpr (by omega), ByteArray.append_empty]
    exact ⟨h, fun hwhole => ⟨h.legible hwhole, fun _ => hwhole⟩⟩
  | case2 w i hend j more hfull next =>
    rename_i hflush ih
    have hstage : Kept codec more before (given ++ data.extract i j) :=
      h.stage (size_stage_le h.staged_le data i)
    obtain ⟨hkept, -, hleft⟩ := hstage.flushChunk hflush
    obtain ⟨m, hm, hle, hok, hkept', hleft'⟩ := ih hkept (by omega) hw
    rw [ByteArray.append_assoc, ← ByteArray.extract_eq_extract_append_extract j (by omega) hm]
      at hkept' hleft'
    exact ⟨m, by omega, hle, hok, hkept', fun hwhole => hleft' ((hleft hwhole).2 rfl)⟩
  | case3 w i hend j more =>
    rename_i hfull hflush
    have hstage : Kept codec more before (given ++ data.extract i j) :=
      h.stage (size_stage_le h.staged_le data i)
    obtain ⟨hkept, -, hleft⟩ := hstage.flushChunk hw
    -- the piece of this round is staged, so it was taken although the call fails
    refine ⟨j, by omega, by omega, ?_, hkept, hleft⟩
    rintro rfl
    exact absurd hw (hflush w')
  | case4 w i hend j more =>
    rename_i hfull ih
    have hstage : Kept codec more before (given ++ data.extract i j) :=
      h.stage (size_stage_le h.staged_le data i)
    obtain ⟨m, hm, hle, hok, hkept, hleft⟩ := ih hstage (by omega) hw
    rw [ByteArray.append_assoc, ← ByteArray.extract_eq_extract_append_extract j (by omega) hm]
      at hkept hleft
    exact ⟨m, by omega, hle, hok, hkept, hleft⟩

theorem Kept.of_inner (h : Kept codec w before given) {s : σ} (hs : contents s = contents w.inner) :
    Kept codec { w with inner := s } before given := by
  obtain ⟨file, blocks, chunks, hfile, hrest⟩ := h.entries
  exact ⟨h.lawful, h.codec_eq, h.staged_le, file, blocks, chunks, hs.trans hfile, hrest⟩

theorem Kept.flush (h : Kept codec w before given) {o : Outcome TraceError Unit}
    (hw : w.flush = (o, w')) :
    Kept codec w' before given ∧ (o = .ok () → w'.staged = .empty) ∧
      (Whole w before → Legible codec w' before given ∧ (o = .ok () → Whole w' before)) := by
  rw [flush_eq] at hw
  cases hflush : w.flushChunk with
  | mk cause v =>
    rw [hflush] at hw
    obtain ⟨hkept, hempty, hleft⟩ := h.flushChunk hflush
    cases cause with
    | ok =>
      cases hw
      have hsame := contents_flush v.inner
      have hkept' := hkept.of_inner hsame
      refine ⟨hkept', fun _ => hempty rfl, fun hwhole => ?_⟩
      have hnext : Whole { v with inner := (Sink.flush v.inner).2 } before :=
        (congrArg ByteArray.size hsame).trans ((hleft hwhole).2 rfl)
      exact ⟨hkept'.legible hnext, fun _ => hnext⟩
    | error | panicked =>
      cases hw
      exact ⟨hkept, hempty, hleft⟩

theorem Kept.steps (h : Kept codec w before given) (hwhole : Whole w before) {data : ByteArray}
    (hsteps : Steps w data w') : Kept codec w' before (given ++ data) ∧ Whole w' before := by
  induction hsteps generalizing given with
  | refl w =>
    rw [ByteArray.append_empty]
    exact ⟨h, hwhole⟩
  | stage piece hroom _ ih =>
    rw [← ByteArray.append_assoc]
    exact ih (h.stage (stage_fits h.staged_le hroom)) hwhole
  | flushChunk hflush _ ih =>
    obtain ⟨hkept, -, hnext⟩ := h.flushChunk hflush
    exact ih hkept ((hnext hwhole).2 rfl)
  | @flushSink w w' inner data hflush _ ih =>
    have hsame : contents inner = contents w.inner := by
      have hcontents := contents_flush w.inner
      rwa [hflush] at hcontents
    exact ih (h.of_inner hsame) ((congrArg ByteArray.size hsame).trans hwhole)

end

end Writer

/-- The bytes that calls took: all that an append was given if it succeeded, a front of it if it
failed. -/
inductive WriterCall.Takes :
    List WriterCall → List (Outcome TraceError Unit) → ByteArray → Prop where
  | nil : Takes [] [] .empty
  | append {data rest : ByteArray} {calls : List WriterCall} {o : Outcome TraceError Unit}
      {os : List (Outcome TraceError Unit)} {m : Nat} (hm : m ≤ data.size)
      (hok : o = .ok () → m = data.size) (h : Takes calls os rest) :
      Takes (.append data :: calls) (o :: os) (data.extract 0 m ++ rest)
  | flush {rest : ByteArray} {calls : List WriterCall} {o : Outcome TraceError Unit}
      {os : List (Outcome TraceError Unit)} (h : Takes calls os rest) :
      Takes (.flush :: calls) (o :: os) rest

/-- Of calls that all succeeded every byte was taken. -/
theorem WriterCall.Takes.eq_bytes {calls : List WriterCall} {os : List (Outcome TraceError Unit)}
    {taken : ByteArray} (h : Takes calls os taken) (hok : ∀ o ∈ os, o = .ok ()) :
    taken = bytes calls := by
  induction h with
  | nil => rfl
  | append hm ho h ih =>
    rw [ho (hok _ List.mem_cons_self), ByteArray.extract_zero_size,
      ih fun o ho => hok o (List.mem_cons_of_mem _ ho), bytes]
  | flush h ih => exact ih fun o ho => hok o (List.mem_cons_of_mem _ ho)

namespace Writer

variable {σ : Type}

def goOn [Sink σ] (w : Writer σ) : List WriterCall → List (Outcome TraceError Unit) × Writer σ
  | [] => ([], w)
  | call :: calls =>
    let (o, w) := w.perform call
    let (os, w) := w.goOn calls
    (o :: os, w)

section

variable [LawfulSink σ] {codec : Codec} {w w' : Writer σ} {before given : ByteArray}

/-- One more call takes a front of its bytes. Behind a whole trace it leaves a legible one, however
it ends. -/
theorem Kept.perform (h : Kept codec w before given) (call : WriterCall) :
    ∃ taken, WriterCall.Takes [call] [(w.perform call).1] taken ∧
      Kept codec (w.perform call).2 before (given ++ taken) ∧
      (Whole w before → Legible codec (w.perform call).2 before (given ++ taken)) := by
  cases call with
  | append data =>
    obtain ⟨m, -, hm, hok, hkept, hleft⟩ := h.appendFrom (Nat.zero_le _)
      (Prod.eta _).symm
    refine ⟨data.extract 0 m ++ .empty, .append hm hok .nil, ?_⟩
    rw [ByteArray.append_empty]
    exact ⟨hkept, fun hwhole => (hleft hwhole).1⟩
  | flush =>
    obtain ⟨hkept, -, hleft⟩ := h.flush (Prod.eta _).symm
    refine ⟨.empty, .flush .nil, ?_⟩
    rw [ByteArray.append_empty]
    exact ⟨hkept, fun hwhole => (hleft hwhole).1⟩

theorem Kept.goOn (h : Kept codec w before given) (calls : List WriterCall) :
    ∃ taken, WriterCall.Takes calls (w.goOn calls).1 taken ∧
      Kept codec (w.goOn calls).2 before (given ++ taken) := by
  induction calls generalizing w given with
  | nil =>
    refine ⟨.empty, .nil, ?_⟩
    rw [ByteArray.append_empty]
    exact h
  | cons call calls ih =>
    obtain ⟨first, hfirst, hkept, -⟩ := h.perform call
    obtain ⟨taken, htakes, hkept'⟩ := ih hkept
    rw [ByteArray.append_assoc] at hkept'
    refine ⟨first ++ taken, ?_, hkept'⟩
    cases hfirst with
    | append hm hok hnil =>
      cases hnil
      rw [ByteArray.append_empty]
      exact .append hm hok htakes
    | flush hnil =>
      cases hnil
      rw [ByteArray.empty_append]
      exact .flush htakes

theorem kept_start {sink : σ} {n : Nat} (hc : codec.Lawful) {s : σ}
    (h : start sink n codec = (.ok w, s)) :
    Kept codec w (contents sink) .empty ∧ Whole w (contents sink) := by
  unfold start at h
  split at h
  · cases h
  · split at h
    · next hwrite =>
      have hcontents := Sink.contents_writeAll hwrite
      split at h
      · cases h
      · cases h
        exact ⟨⟨hc, rfl, Nat.zero_le _, magic, [], [], hcontents, .nil, rfl, rfl, Nat.le_refl _,
          fun _ => rfl⟩, (whole_iff hcontents).mpr rfl⟩
    · cases h
    · cases h

end

end Writer

end TraceCapture
