import TraceCapture.Proofs.Writer.Failures

set_option autoImplicit false

/-!
# How a writer goes on

Between two moments of a writer the position and the count move along with the entries that were
written, and the bytes that were staged or taken since are in their chunks or staged again. An
append that fails does so at a chunk that it filled or found full, with everything up to there
taken: `Appends`. What was taken of any calls is `accepted`.
-/

namespace TraceCapture

open LawfulSink

/-- The codec made the block of a chunk, in the room that a writer of chunks of up to `n` bytes has
for it. -/
structure Codec.Makes (codec : Codec) (n : Nat) (block chunk : ByteArray) : Prop where
  chunk_pos : 0 < chunk.size
  chunk_le : chunk.size ≤ n
  block_lt : block.size < Bytes.u32Limit
  compress_eq : ∃ call, codec.compress call chunk (codec.maxCompressedSize n) = .ok block

namespace Writer

variable {σ : Type} [LawfulSink σ]

/-- From the first writer to the second, `data` was taken and entries of these blocks were written.
These are all that the sink took if it has no faults, or took no more bytes than they have. -/
structure Extends (w v : Writer σ) (data : ByteArray) (blocks chunks : List ByteArray) : Prop
    extends SameFormat w v where
  reaches : Sink.Reaches w.inner v.inner
  makes : List.Forall₂ (w.codec.Makes w.chunkSize.val) blocks chunks
  bytes_eq : Bytes.concat chunks ++ v.staged = w.staged ++ data
  first_le : w.staged.size ≤ (chunks.headD v.staged).size
  staged_le : w.staged.size ≤ w.chunkSize.val → v.staged.size ≤ v.chunkSize.val
  position_eq : v.position = w.position + (Entry.writtenAll blocks).size
  chunksWritten_eq : v.chunksWritten = w.chunksWritten + blocks.length
  size_le : (contents w.inner).size + (Entry.writtenAll blocks).size ≤ (contents v.inner).size
  contents_eq : Sink.FaultFree w.inner ∨ (contents v.inner).size =
      (contents w.inner).size + (Entry.writtenAll blocks).size →
    contents v.inner = contents w.inner ++ Entry.writtenAll blocks

variable {w v x : Writer σ} {a b data before : ByteArray} {bs bs' cs cs' : List ByteArray}

theorem Extends.trans (h : Extends w v a bs cs) (h' : Extends v x b bs' cs') :
    Extends w x (a ++ b) (bs ++ bs') (cs ++ cs') where
  toSameFormat := h.toSameFormat.trans h'.toSameFormat
  reaches := h.reaches.trans h'.reaches
  makes := by
    have hmakes := h'.makes
    rw [h.codec_eq, h.chunkSize_eq] at hmakes
    exact List.rel_append h.makes hmakes
  bytes_eq := by
    rw [Bytes.concat_append, ByteArray.append_assoc, h'.bytes_eq, ← ByteArray.append_assoc,
      h.bytes_eq, ByteArray.append_assoc]
  first_le := by
    cases cs with
    | nil =>
      -- nothing was written up to the middle, so all that was staged is still staged there
      have hsize := congrArg ByteArray.size h.bytes_eq
      have hfirst := h'.first_le
      simp only [Bytes.concat, ByteArray.empty_append, ByteArray.size_append] at hsize
      rw [List.nil_append]
      omega
    | cons c cs => exact h.first_le
  staged_le hfit := h'.staged_le (h.staged_le hfit)
  position_eq := by
    rw [h'.position_eq, h.position_eq, Entry.writtenAll_append, ByteArray.size_append,
      Nat.add_assoc]
  chunksWritten_eq := by
    rw [h'.chunksWritten_eq, h.chunksWritten_eq, List.length_append, Nat.add_assoc]
  size_le := by
    have hle := h.size_le
    have hle' := h'.size_le
    rw [Entry.writtenAll_append, ByteArray.size_append]
    omega
  contents_eq hsink := by
    have hle := h.size_le
    have hle' := h'.size_le
    rw [Entry.writtenAll_append, ByteArray.size_append] at hsink
    rw [h'.contents_eq (hsink.imp (·.of_reaches h.reaches) (by omega)),
      h.contents_eq (hsink.imp_right (by omega)), Entry.writtenAll_append, ByteArray.append_assoc]

theorem extends_stage (hroom : data.size ≤ w.room) : Extends w (w.stage data) data [] [] where
  codec_eq := rfl
  chunkSize_eq := rfl
  reaches := .refl
  makes := .nil
  bytes_eq := ByteArray.empty_append
  first_le := by
    change _ ≤ (w.stage data).staged.size
    rw [size_stage]
    exact Nat.le_add_right _ _
  staged_le hfit := stage_fits hfit hroom
  position_eq := rfl
  chunksWritten_eq := rfl
  size_le := Nat.le_refl _
  contents_eq _ := ByteArray.append_empty.symm

theorem Extends.refl (w : Writer σ) : Extends w w .empty [] [] := by
  have h : Extends w (w.stage .empty) .empty [] [] := extends_stage (Nat.zero_le _)
  rwa [stage_empty] at h

/-- It does not count how often the codec was asked, nor what leaves the sink's bytes alone. -/
theorem Extends.of_inner (h : Extends w v data bs cs) {inner : σ}
    (hreaches : Sink.Reaches v.inner inner) (hc : contents inner = contents v.inner) (n : Nat) :
    Extends w { v with inner, compressions := n } data bs cs :=
  { h with
    reaches := h.reaches.trans hreaches
    size_le := hc ▸ h.size_le
    contents_eq := hc ▸ h.contents_eq }

theorem extends_putBlock {block : ByteArray} {inner : σ} (h0 : w.staged.size ≠ 0)
    (hfit : w.staged.size ≤ w.chunkSize.val)
    (hblock : w.codec.compress w.compressions w.staged
      (w.codec.maxCompressedSize w.chunkSize.val) = .ok block)
    (hlimit : block.size < Bytes.u32Limit) (hput : putEntry w.inner block = (.ok (), inner)) :
    Extends w (w.putBlock block inner) .empty [block] [w.staged] ∧
      contents inner = contents w.inner ++ Entry.writtenAll [block] := by
  have hwritten : Entry.writtenAll [block] = Entry.written block := ByteArray.append_empty
  have hcontents : contents inner = contents w.inner ++ Entry.writtenAll [block] := by
    rw [hwritten]
    exact contents_putEntry hput
  have hreaches := reaches_putEntry w.inner block
  rw [hput] at hreaches
  refine ⟨?_, hcontents⟩
  exact {
    codec_eq := rfl
    chunkSize_eq := rfl
    reaches := hreaches
    makes := .cons ⟨Nat.pos_of_ne_zero h0, hfit, hlimit, _, hblock⟩ .nil
    bytes_eq := by simp only [putBlock, Bytes.concat, ByteArray.append_empty]
    first_le := Nat.le_refl _
    staged_le := fun _ => Nat.zero_le _
    position_eq := by
      rw [hwritten, Entry.size_written, ← Nat.add_assoc]
      rfl
    chunksWritten_eq := rfl
    size_le := Nat.le_of_eq (by rw [← ByteArray.size_append, ← hcontents]; rfl)
    contents_eq := fun _ => hcontents }

theorem extends_of_flushChunk (hfit : w.staged.size ≤ w.chunkSize.val)
    (h : w.flushChunk = (.ok (), v)) :
    ∃ blocks, Extends w v .empty blocks w.stagedChunk ∧
      contents v.inner = contents w.inner ++ Entry.writtenAll blocks := by
  by_cases h0 : w.staged.size = 0
  · rw [flushChunk_of_empty h0] at h
    cases h
    rw [stagedChunk, if_pos h0]
    exact ⟨[], .refl w, ByteArray.append_empty.symm⟩
  · obtain ⟨block, inner, hblock, hlimit, hput, rfl⟩ := flushChunk_eq_ok h h0
    rw [stagedChunk, if_neg h0]
    exact ⟨[block], extends_putBlock h0 hfit hblock hlimit hput⟩

theorem staged_of_flushChunk_failed {o : Outcome TraceError Unit} (h : w.flushChunk = (o, v))
    (ho : o ≠ .ok ()) : w.staged.size ≠ 0 := by
  intro h0
  rw [flushChunk_of_empty h0] at h
  exact ho (congrArg Prod.fst h).symm

/-- Why a chunk could not be written: the codec refused it, its block is too long, or the sink
failed. -/
theorem flushChunk_failed {o : Outcome TraceError Unit} (h : w.flushChunk = (o, v))
    (ho : o ≠ .ok ()) :
    (∃ e, w.codec.compress w.compressions w.staged
          (w.codec.maxCompressedSize w.chunkSize.val) = .error e ∧ o = .error e ∧
        v = { w with compressions := w.compressions + 1 }) ∨
      (∃ block, w.codec.compress w.compressions w.staged
          (w.codec.maxCompressedSize w.chunkSize.val) = .ok block ∧
        Bytes.u32Limit ≤ block.size ∧ v = { w with compressions := w.compressions + 1 }) ∨
      ∃ block cause inner, w.codec.compress w.compressions w.staged
          (w.codec.maxCompressedSize w.chunkSize.val) = .ok block ∧
        putEntry w.inner block = (cause, inner) ∧ cause ≠ .ok () ∧
        v = { w with compressions := w.compressions + 1, inner } := by
  rw [Writer.flushChunk, if_neg (staged_of_flushChunk_failed h ho)] at h
  dsimp only at h
  split at h
  · next e he =>
    cases h
    exact .inl ⟨e, he, rfl, rfl⟩
  · next block hblock =>
    split at h
    · next hlimit =>
      cases h
      exact .inr (.inl ⟨block, hblock, hlimit, rfl⟩)
    · cases hput : putEntry w.inner block with
      | mk cause inner =>
        rw [hput] at h
        cases cause with
        | ok =>
          cases h
          exact absurd rfl ho
        | error | panicked =>
          cases h
          exact .inr (.inr ⟨block, _, inner, hblock, hput, by simp, rfl⟩)

theorem extends_of_flushChunk_failed {o : Outcome TraceError Unit} (h : w.flushChunk = (o, v))
    (ho : o ≠ .ok ()) : Extends w v .empty [] [] ∧ v.staged = w.staged := by
  obtain ⟨-, -, -, rfl⟩ | ⟨-, -, -, rfl⟩ | ⟨block, cause, inner, -, hput, hne, rfl⟩ :=
    flushChunk_failed h ho
  · exact ⟨(Extends.refl w).of_inner .refl rfl _, rfl⟩
  · exact ⟨(Extends.refl w).of_inner .refl rfl _, rfl⟩
  · have hreaches := reaches_putEntry w.inner block
    obtain ⟨m, -, hinner⟩ := contents_putEntry_failed hput hne
    rw [hput] at hreaches
    refine ⟨{ Extends.refl w with reaches := hreaches, size_le := ?_, contents_eq := ?_ }, rfl⟩
    · change (contents w.inner).size ≤ (contents inner).size
      rw [hinner, ByteArray.size_append]
      exact Nat.le_add_right _ _
    · rintro (hfree | hsize)
      · have hok := congrArg Prod.fst (putEntry_ok hfree block)
        rw [hput] at hok
        exact absurd hok hne
      · change (contents inner).size = (contents w.inner).size at hsize
        rw [hinner, ByteArray.size_append] at hsize
        have hnone : (Entry.written block).extract 0 m = .empty :=
          ByteArray.size_eq_zero_iff.mp (by omega)
        change contents inner = contents w.inner ++ .empty
        rw [hinner, hnone]

omit [LawfulSink σ] in
theorem mem_stagedChunk {c : ByteArray} (h : c ∈ w.stagedChunk) : c = w.staged := by
  unfold stagedChunk at h
  split at h
  · cases h
  · exact List.mem_singleton.mp h

/-- How an append of the bytes of `data` from index `i` on goes. The chunks that it writes are full,
and so is the one at which it fails. -/
inductive Appends (w : Writer σ) (data : ByteArray) (i : Nat) :
    Outcome TraceError Unit → Writer σ → Prop where
  | done {v : Writer σ} {blocks chunks : List ByteArray}
      (hext : Extends w v (data.extract i data.size) blocks chunks)
      (hcontents : contents v.inner = contents w.inner ++ Entry.writtenAll blocks)
      (hfull : ∀ c ∈ chunks, c.size = w.chunkSize.val)
      (hshort : i < data.size → v.staged.size < w.chunkSize.val) : Appends w data i (.ok ()) v
  | stuck {m : Nat} {v v' : Writer σ} {blocks chunks : List ByteArray}
      {o : Outcome TraceError Unit} (hi : i ≤ m) (hm : m ≤ data.size)
      (hext : Extends w v (data.extract i m) blocks chunks)
      (hcontents : contents v.inner = contents w.inner ++ Entry.writtenAll blocks)
      (hfull : ∀ c ∈ chunks, c.size = w.chunkSize.val) (hfilled : v.staged.size = w.chunkSize.val)
      (hflush : v.flushChunk = (o, v')) (ho : o ≠ .ok ()) : Appends w data i o v'

theorem Appends.after {i j : Nat} {o : Outcome TraceError Unit} (hij : i ≤ j)
    (hj : j ≤ data.size) (hext : Extends w v (data.extract i j) bs cs)
    (hcontents : contents v.inner = contents w.inner ++ Entry.writtenAll bs)
    (hfull : ∀ c ∈ cs, c.size = w.chunkSize.val)
    (hshort : j = data.size → v.staged.size < w.chunkSize.val) (h : Appends v data j o x) :
    Appends w data i o x := by
  have hsize := hext.chunkSize_eq
  have hboth : ∀ {ds : List ByteArray}, (∀ c ∈ ds, c.size = v.chunkSize.val) →
      ∀ c ∈ cs ++ ds, c.size = w.chunkSize.val := by
    intro ds hds c hc
    obtain hc | hc := List.mem_append.mp hc
    · exact hfull c hc
    · rw [hds c hc, hsize]
  cases h with
  | done hext' hcontents' hfull' hshort' =>
    have hall := hext.trans hext'
    rw [← ByteArray.extract_eq_extract_append_extract j hij hj] at hall
    refine .done hall ?_ (hboth hfull') fun _ => ?_
    · rw [hcontents', hcontents, Entry.writtenAll_append, ByteArray.append_assoc]
    · obtain hlt | rfl := Nat.lt_or_eq_of_le hj
      · exact hsize ▸ hshort' hlt
      · have hbytes := congrArg ByteArray.size hext'.bytes_eq
        have hlast := hshort rfl
        simp only [ByteArray.size_append, ByteArray.size_extract] at hbytes
        omega
  | stuck hi hm hext' hcontents' hfull' hfilled hflush ho =>
    have hall := hext.trans hext'
    rw [← ByteArray.extract_eq_extract_append_extract j hij hi] at hall
    refine .stuck (Nat.le_trans hij hi) hm hall ?_ (hboth hfull') (hsize ▸ hfilled) hflush ho
    rw [hcontents', hcontents, Entry.writtenAll_append, ByteArray.append_assoc]

theorem appends_appendFrom (hfit : w.staged.size ≤ w.chunkSize.val) {i : Nat} (hi : i ≤ data.size)
    {o : Outcome TraceError Unit} (h : w.appendFrom data i = (o, v)) : Appends w data i o v := by
  -- the bytes of one round fit into the chunk, and fill it unless they are the last
  have hround : ∀ (w : Writer σ) i, i ≤ data.size → let j := i + min (data.size - i) w.room
      i ≤ j ∧ j ≤ data.size ∧ Extends w (w.stage (data.extract i j)) (data.extract i j) [] [] := by
    intro w i hi
    refine ⟨by omega, by omega, extends_stage ?_⟩
    rw [ByteArray.size_extract]
    omega
  have hsame : ∀ u : Writer σ, contents u.inner = contents u.inner ++ Entry.writtenAll [] :=
    fun _ => ByteArray.append_empty.symm
  fun_induction Writer.appendFrom w data i with
  | case1 w i hend =>
    cases h
    have hnone : data.extract i data.size = .empty := ByteArray.extract_eq_empty_iff.mpr (by omega)
    have hdone : Extends v v (data.extract i data.size) [] [] := by
      rw [hnone]
      exact .refl v
    exact .done hdone (hsame v) (List.forall_mem_nil _) (fun hlt => absurd hlt (by omega))
  | case2 w i hend j more hfull next =>
    rename_i hflush ih
    obtain ⟨hij, hj, hstage⟩ := hround w i hi
    have hmore := hstage.staged_le hfit
    obtain ⟨bs, hwrite, hcontents⟩ := extends_of_flushChunk hmore hflush
    have hall := hstage.trans hwrite
    rw [ByteArray.append_empty] at hall
    have hempty := staged_of_flushChunk hflush
    refine .after hij hj hall hcontents ?_ (fun _ => ?_) (ih (hall.staged_le hfit) hj h)
    · intro c hc
      rw [mem_stagedChunk hc]
      exact Nat.le_antisymm hmore hfull
    · rw [hempty]
      exact w.chunkSize.pos
  | case3 w i hend j more =>
    rename_i hfull hflush
    obtain ⟨hij, hj, hstage⟩ := hround w i hi
    refine .stuck hij hj hstage (hsame w) (List.forall_mem_nil _) ?_ h ?_
    · exact Nat.le_antisymm (hstage.staged_le hfit) hfull
    · rintro rfl
      exact hflush v h
  | case4 w i hend j more =>
    rename_i hfull ih
    obtain ⟨hij, hj, hstage⟩ := hround w i hi
    exact .after hij hj hstage (hsame w) (List.forall_mem_nil _) (fun _ => Nat.lt_of_not_le hfull)
      (ih (hstage.staged_le hfit) hj h)

theorem appends_append (hfit : w.staged.size ≤ w.chunkSize.val) {o : Outcome TraceError Unit}
    (h : w.append data = (o, v)) : Appends w data 0 o v :=
  appends_appendFrom hfit (Nat.zero_le _) h

/-- How many bytes fill the chunk behind those that were written from one moment to the other. -/
def fillPoint (w v : Writer σ) : Nat :=
  (v.chunksWritten - w.chunksWritten + 1) * w.chunkSize.val - w.staged.size

def taken (w : Writer σ) : WriterCall → ByteArray
  | .append data => if (w.append data).1 = .ok () then data
      else data.extract 0 (w.fillPoint (w.append data).2)
  | .flush => .empty

def accepted (w : Writer σ) : List WriterCall → ByteArray
  | [] => .empty
  | call :: calls => w.taken call ++ (w.perform call).2.accepted calls

theorem fillPoint_eq {m : Nat} (hm : m ≤ data.size) (hext : Extends w v (data.extract 0 m) bs cs)
    (hfull : ∀ c ∈ cs, c.size = w.chunkSize.val) (hfilled : v.staged.size = w.chunkSize.val)
    (hsame : x.chunksWritten = v.chunksWritten) : w.fillPoint x = m := by
  have hbytes := congrArg ByteArray.size hext.bytes_eq
  rw [ByteArray.size_append, ByteArray.size_append, ByteArray.size_extract,
    Bytes.size_concat hfull, ← hext.makes.length_eq] at hbytes
  rw [fillPoint, hsame, hext.chunksWritten_eq, Nat.add_sub_cancel_left, Nat.add_mul, Nat.one_mul]
  omega

/-- Whatever becomes of an append, the bytes that it takes bring the writer to its end, or to a full
chunk that could not be written. -/
theorem append_reaches (hfit : w.staged.size ≤ w.chunkSize.val) (data : ByteArray) :
    ∃ v bs cs, Extends w v (w.taken (.append data)) bs cs ∧
      contents v.inner = contents w.inner ++ Entry.writtenAll bs ∧
      (w.append data = (.ok (), v) ∨
        (w.append data).1 ≠ .ok () ∧ w.fillPoint (w.append data).2 ≤ data.size ∧
          v.staged.size = w.chunkSize.val ∧ v.flushChunk = w.append data) := by
  rcases hr : w.append data with ⟨o, x⟩
  cases appends_append hfit hr with
  | @done _ bs cs hext hcontents =>
    have htaken : w.taken (.append data) = data := by rw [taken, hr, if_pos rfl]
    rw [ByteArray.extract_zero_size] at hext
    rw [htaken]
    exact ⟨x, bs, cs, hext, hcontents, .inl rfl⟩
  | @stuck m v _ bs cs _ _ hm hext hcontents hfull hfilled hflush ho =>
    obtain ⟨hidle, -⟩ := extends_of_flushChunk_failed hflush ho
    have hpoint := fillPoint_eq hm hext hfull hfilled hidle.chunksWritten_eq
    have htaken : w.taken (.append data) = data.extract 0 m := by
      rw [taken, hr, if_neg ho]
      exact congrArg _ hpoint
    rw [htaken]
    exact ⟨v, bs, cs, hext, hcontents, .inr ⟨ho, Nat.le_trans (Nat.le_of_eq hpoint) hm, hfilled,
      hflush⟩⟩

theorem extends_append (hfit : w.staged.size ≤ w.chunkSize.val) (data : ByteArray) :
    ∃ bs cs, Extends w (w.append data).2 (w.taken (.append data)) bs cs := by
  obtain ⟨v, bs, cs, hext, -, hv | ⟨ho, -, -, hflush⟩⟩ := append_reaches hfit data
  · rw [hv]
    exact ⟨bs, cs, hext⟩
  · obtain ⟨hidle, -⟩ := extends_of_flushChunk_failed (hflush.trans (Prod.eta _).symm) ho
    have hall := hext.trans hidle
    rw [List.append_nil, List.append_nil, ByteArray.append_empty] at hall
    exact ⟨bs, cs, hall⟩

theorem extends_flush (hfit : w.staged.size ≤ w.chunkSize.val) :
    ∃ bs cs, Extends w w.flush.2 .empty bs cs := by
  rw [flush_eq]
  cases hchunk : w.flushChunk with
  | mk o v =>
    by_cases ho : o = .ok ()
    · obtain rfl := ho
      obtain ⟨bs, hext, -⟩ := extends_of_flushChunk hfit hchunk
      exact ⟨bs, _, hext.of_inner (.flush .refl) (contents_flush _) v.compressions⟩
    · rw [andThen_of_ne_ok fun u hu => ho (congrArg Prod.fst hu)]
      exact ⟨[], [], (extends_of_flushChunk_failed hchunk ho).1⟩

theorem extends_perform (hfit : w.staged.size ≤ w.chunkSize.val) (call : WriterCall) :
    ∃ bs cs, Extends w (w.perform call).2 (w.taken call) bs cs := by
  cases call with
  | append data => exact extends_append hfit data
  | flush => exact extends_flush hfit

theorem extends_goOn (hfit : w.staged.size ≤ w.chunkSize.val) (calls : List WriterCall) :
    ∃ bs cs, Extends w (w.goOn calls).2 (w.accepted calls) bs cs := by
  induction calls generalizing w with
  | nil => exact ⟨[], [], .refl w⟩
  | cons call calls ih =>
    obtain ⟨bs, cs, hext⟩ := extends_perform hfit call
    obtain ⟨bs', cs', hrest⟩ := ih (hext.staged_le hfit)
    exact ⟨bs ++ bs', cs ++ cs', hext.trans hrest⟩

omit [LawfulSink σ] in
theorem goOn_append [Sink σ] (w : Writer σ) (calls more : List WriterCall) :
    (w.goOn (calls ++ more)).2 = ((w.goOn calls).2.goOn more).2 := by
  induction calls generalizing w with
  | nil => rfl
  | cons call calls ih => exact ih _

theorem accepted_append (w : Writer σ) (calls more : List WriterCall) :
    w.accepted (calls ++ more) = w.accepted calls ++ (w.goOn calls).2.accepted more := by
  induction calls generalizing w with
  | nil => exact ByteArray.empty_append.symm
  | cons call calls ih =>
    rw [List.cons_append, accepted, ih, accepted, ByteArray.append_assoc]
    rfl

structure Fresh (w : Writer σ) (codec : Codec) (n : Nat) (before : ByteArray) : Prop where
  codec_eq : w.codec = codec
  chunkSize_eq : w.chunkSize.val = n
  staged_eq : w.staged = .empty
  position_eq : w.position = magic.size
  chunksWritten_eq : w.chunksWritten = 0
  contents_eq : contents w.inner = before ++ magic

theorem fresh_of_start {sink s : σ} {codec : Codec} {n : Nat}
    (h : start sink n codec = (.ok w, s)) : Fresh w codec n (contents sink) ∧ s = w.inner := by
  unfold start ChunkSize.ofNat? at h
  split at h
  · cases h
  · next hsize =>
    split at h
    · next hwrite =>
      have hcontents := Sink.contents_writeAll hwrite
      split at h
      · cases h
      · cases h
        split at hsize <;> cases hsize
        exact ⟨⟨rfl, rfl, rfl, rfl, rfl, hcontents⟩, rfl⟩
    · cases h
    · cases h

theorem Fresh.fits {codec : Codec} {n : Nat} (h : Fresh w codec n before) :
    w.staged.size ≤ w.chunkSize.val := by
  rw [h.staged_eq]
  exact Nat.zero_le _

theorem start_ok {sink : σ} (hs : Sink.FaultFree sink) {codec : Codec} {n : Nat} (hpos : 0 < n)
    (hmax : n ≤ maxChunkSize) (hbuffer : codec.maxCompressedSize n < Bytes.bufferLimit) :
    ∃ w, start sink n codec = (.ok w, w.inner) ∧ Fresh w codec n (contents sink) ∧
      Sink.FaultFree w.inner := by
  have hstart : ∃ w s, start sink n codec = (.ok w, s) ∧ s = (Sink.writeAll sink magic).2 := by
    rw [start_eq sink codec hpos hmax hbuffer, Sink.writeAll_ok hs magic]
    exact ⟨_, _, rfl, rfl⟩
  obtain ⟨w, s, hw, hreached⟩ := hstart
  obtain ⟨hfresh, rfl⟩ := fresh_of_start hw
  refine ⟨w, hw, hfresh, ?_⟩
  rw [hreached]
  exact hs.of_reaches (Sink.reaches_writeAll _ _)

end Writer

end TraceCapture
