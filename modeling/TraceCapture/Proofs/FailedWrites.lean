import TraceCapture.Proofs.Stream.Memory
import TraceCapture.Proofs.Writer.Refusals

set_option autoImplicit false

namespace TraceCapture

open LawfulSink

namespace Writer

variable {σ : Type}

theorem write_eq [Sink σ] (w : Writer σ) (data : ByteArray) :
    (w.write data).2 = (w.append data).2 ∧
      ((w.write data).1 = .ok data.size ↔ (w.append data).1 = .ok ()) := by
  unfold write
  generalize w.append data = r
  obtain ⟨o, v⟩ := r
  refine ⟨rfl, ?_⟩
  cases o with
  | ok => exact ⟨fun _ => rfl, fun _ => rfl⟩
  | error | panicked =>
    constructor <;>
    · intro h
      cases h

variable [LawfulSink σ] {w v : Writer σ} {codec : Codec} {before given : ByteArray}
  {blocks chunks : List ByteArray}

theorem InStep.legible (h : InStep codec w before given blocks chunks) :
    Legible codec w before given :=
  ⟨_, chunks, h.contents_eq, ByteArray.extract_append_eq_left rfl,
    Codec.decodes_writtenAll h.faithful.max_lt h.encodes magic, h.bytes_eq⟩

/-- The front of an entry is read as the end, so the trace still holds what it did. -/
theorem InStep.legible_of_flushChunk_failed (h : InStep codec w before given blocks chunks)
    {o : Outcome TraceError Unit} (hflush : w.flushChunk = (o, v)) (ho : o ≠ .ok ()) :
    Legible codec v before given := by
  have h0 := staged_of_flushChunk_failed hflush ho
  obtain ⟨-, -, -, rfl⟩ | ⟨-, -, -, rfl⟩ | ⟨block, cause, inner, hblock, hput, hne, rfl⟩ :=
    Writer.flushChunk_failed hflush ho
  · exact h.legible
  · exact h.legible
  · obtain ⟨henc, hlimit⟩ := h.encodes_staged h0 hblock
    obtain ⟨m, hm, hinner⟩ := contents_putEntry_failed hput hne
    refine ⟨magic ++ (Entry.writtenAll blocks ++ (Entry.written block).extract 0 m), chunks, ?_,
      ByteArray.extract_append_eq_left rfl, ?_, h.bytes_eq⟩
    · dsimp only
      rw [hinner, h.contents_eq]
      simp only [ByteArray.append_assoc]
    · exact Codec.decodes_writtenAll_append h.faithful.max_lt h.encodes
        (Entry.ends_front henc.block_pos henc.block_le hlimit hm) magic

theorem Fresh.inStep_of_whole {n : Nat} (h : Fresh w codec n before) (hc : codec.Faithful)
    {calls : List WriterCall} (hwhole : Whole (w.goOn calls).2 before) :
    ∃ blocks chunks, InStep codec (w.goOn calls).2 before (w.accepted calls) blocks chunks := by
  obtain ⟨blocks, chunks, hext⟩ := extends_goOn h.fits calls
  have hsize : (contents (w.goOn calls).2.inner).size =
      (contents w.inner).size + (Entry.writtenAll blocks).size := by
    rw [hwhole, hext.position_eq, h.position_eq, h.contents_eq, ByteArray.size_append,
      Nat.add_assoc]
  have hstep := (h.inStep hc).extend hext (hext.contents_eq (.inr hsize))
  rw [ByteArray.empty_append] at hstep
  exact ⟨_, _, hstep⟩

theorem InStep.legible_of_append (h : InStep codec w before given blocks chunks)
    {data : ByteArray} (happend : w.append data = (.ok (), v)) :
    Legible codec v before (given ++ data) := by
  obtain ⟨u, bs, cs, hext, hcontents, hu | ⟨ho, -⟩⟩ := append_reaches h.staged_le data
  · rw [happend] at hu
    cases hu
    have hall := h.extend hext hcontents
    rw [taken, happend, if_pos rfl] at hall
    exact hall.legible
  · rw [happend] at ho
    exact absurd rfl ho

/-- A failing append ends behind a trace of what it took, at the chunk that could not be written. -/
theorem InStep.legible_of_append_failed (h : InStep codec w before given blocks chunks)
    {data : ByteArray} {o : Outcome TraceError Unit} (happend : w.append data = (o, v))
    (ho : o ≠ .ok ()) : Legible codec v before (given ++ w.taken (.append data)) := by
  obtain ⟨u, bs, cs, hext, hcontents, hu | ⟨-, -, -, hflush⟩⟩ := append_reaches h.staged_le data
  · rw [happend] at hu
    exact absurd (congrArg Prod.fst hu) ho
  · rw [happend] at hflush
    exact (h.extend hext hcontents).legible_of_flushChunk_failed hflush ho

end Writer

/-- An append that fails, and a write that does, stays in the trace up to the end of the chunk that
could not be written. That is nothing only if this chunk was full before. Repeating the call puts
all bytes behind those. -/
theorem failed_write_stays_in_part {σ : Type} [LawfulSink σ] {sink s : σ} {codec : Codec} {n : Nat}
    {w : Writer σ} (hc : codec.Faithful) (hstart : Writer.start sink n codec = (.ok w, s))
    (calls : List WriterCall) (data : ByteArray) {v v' : Writer σ} {o : Outcome TraceError Unit}
    (hv : (w.goOn calls).2 = v) (hfail : v.append data = (o, v')) (ho : o ≠ .ok ()) :
    v.write data = ((o.mapError TraceError.toIo).map fun _ => data.size, v') ∧
      ∃ m blocks chunks, m ≤ data.size ∧ v.Extends v' (data.extract 0 m) blocks chunks ∧
        v'.staged.size = n ∧ (m = 0 ↔ v.staged.size = n ∧ blocks = []) ∧
        (v.Whole (contents sink) →
          v.Legible codec (contents sink) (w.accepted calls) ∧
          v'.Legible codec (contents sink) (w.accepted calls ++ data.extract 0 m)) ∧
        (v'.Whole (contents sink) → ∀ x, v'.write data = (.ok data.size, x) →
          x.Legible codec (contents sink) (w.accepted calls ++ data.extract 0 m ++ data)) := by
  obtain ⟨hfresh, -⟩ := Writer.fresh_of_start hstart
  obtain ⟨_, _, hbefore⟩ := Writer.extends_goOn hfresh.fits calls
  rw [hv] at hbefore
  have hsize : v.chunkSize.val = n := by rw [hbefore.chunkSize_eq, hfresh.chunkSize_eq]
  have hfit := hbefore.staged_le hfresh.fits
  have htaken : v.taken (.append data) = data.extract 0 (v.fillPoint v') := by
    rw [Writer.taken, hfail, if_neg ho]
  obtain ⟨blocks, chunks, hext⟩ := Writer.extends_append hfit data
  obtain ⟨hm, hfilled⟩ : v.fillPoint v' ≤ data.size ∧ v'.staged.size = v.chunkSize.val := by
    obtain ⟨u, -, -, -, -, hu | ⟨-, hm, hfilled, hflush⟩⟩ := Writer.append_reaches hfit data
    · rw [hfail] at hu
      exact absurd (congrArg Prod.fst hu) ho
    · rw [hfail] at hm hflush
      obtain ⟨-, hsame⟩ := Writer.extends_of_flushChunk_failed hflush ho
      exact ⟨hm, hsame ▸ hfilled⟩
  rw [hfail, htaken] at hext
  have hnone := Writer.fillPoint_eq_zero_iff hfit hext.chunksWritten_eq
  rw [hsize] at hfilled hnone
  refine ⟨by rw [Writer.write, hfail], _, blocks, chunks, hm, hext, hfilled, hnone,
    fun hwhole => ?_, fun hwhole x hx => ?_⟩
  · subst hv
    obtain ⟨_, _, hstep⟩ := hfresh.inStep_of_whole hc hwhole
    rw [← htaken]
    exact ⟨hstep.legible, hstep.legible_of_append_failed hfail ho⟩
  · have hgone : (w.goOn (calls ++ [.append data])).2 = v' := by
      rw [Writer.goOn_append, hv]
      exact congrArg Prod.snd hfail
    have haccepted : w.accepted (calls ++ [.append data]) =
        w.accepted calls ++ data.extract 0 (v.fillPoint v') := by
      rw [Writer.accepted_append, hv, ← htaken]
      exact congrArg _ ByteArray.append_empty
    rw [← hgone] at hwhole
    obtain ⟨_, _, hstep⟩ := hfresh.inStep_of_whole hc hwhole
    rw [hgone, haccepted] at hstep
    obtain ⟨hsame, hiff⟩ := v'.write_eq data
    rw [hx] at hsame hiff
    exact hstep.legible_of_append (Prod.ext (hiff.mp rfl) hsame.symm)

theorem failed_write_stays_in_part_when_repeated :
    ∃ w v x : Writer MemorySink,
      Writer.start (MemorySink.new .none) 2 (Codec.stored.refusing 1) = (.ok w, w.inner) ∧
      v.staged = ⟨#[1, 2]⟩ ∧ w.write ⟨#[1, 2, 3]⟩ =
        (.error (.invalidData "corrupt trace file: codec refused to compress"), v) ∧
      v.write ⟨#[1, 2, 3]⟩ = (.ok 3, x) ∧
      x.Legible (Codec.stored.refusing 1) .empty ⟨#[1, 2, 1, 2, 3]⟩ := by
  let w := Writer.onMemory (Codec.stored.refusing 1) ⟨2, by decide, by decide⟩
  let v := (w.stage ⟨#[1, 2]⟩).refused
  let block : ByteArray := ⟨#[2, 0, 0, 0, 1, 2]⟩
  let once : MemorySink := { v.inner with data := magic ++ Bytes.ofU32 block.size ++ block }
  let twice : MemorySink := { once with data := once.data ++ Bytes.ofU32 block.size ++ block }
  let u := (v.putBlock block once).stage ⟨#[1, 2]⟩
  let x := (u.putBlock block twice).stage ⟨#[3]⟩
  have hstart : Writer.start (MemorySink.new .none) 2 (Codec.stored.refusing 1) =
      (.ok w, w.inner) := Writer.start_onMemory w.codec w.chunkSize (by decide)
  have hfail : w.append ⟨#[1, 2, 3]⟩ =
      (.error (.corrupt (.codec "codec refused to compress")), v) :=
    Writer.append_of_refuses (by decide) (by decide) (by decide) rfl
  have hblock : v.codec.compress 1 ⟨#[1, 2]⟩ 6 = .ok block := rfl
  have hblock' : u.codec.compress 2 ⟨#[1, 2]⟩ 6 = .ok block := rfl
  have hput : Writer.putEntry v.inner block = (.ok (), once) :=
    Writer.putEntry_onMemory rfl rfl block
  have hput' : Writer.putEntry u.inner block = (.ok (), twice) :=
    Writer.putEntry_onMemory rfl rfl block
  have hflush : u.flushChunk = (.ok (), u.putBlock block twice) :=
    Writer.flushChunk_of_put (by decide) hblock' (by decide) hput'
  have hrepeat : v.append ⟨#[1, 2, 3]⟩ = (.ok (), x) := by
    rw [Writer.append_of_full rfl (by decide),
      Writer.flushChunk_of_put (by decide) hblock (by decide) hput, Writer.andThen_ok,
      Writer.append, Writer.appendFrom_fill (by decide) (by decide)]
    refine (congrArg (fun r => Writer.andThen r _) hflush).trans ?_
    rw [Writer.andThen_ok, Writer.appendFrom_stage (k := 1) (by decide) (by decide),
      Writer.appendFrom_end (by decide)]
    rfl
  have hagain : v.write ⟨#[1, 2, 3]⟩ = (.ok 3, x) := by
    rw [Writer.write, hrepeat]
    rfl
  obtain ⟨hwrite, m, blocks, chunks, -, hext, -, -, -, htwice⟩ := failed_write_stays_in_part
    (Codec.faithful_stored.refusing 1) hstart [] ⟨#[1, 2, 3]⟩ rfl hfail (by simp)
  have hcount : 0 = 0 + blocks.length := hext.chunksWritten_eq
  obtain rfl : blocks = [] := List.length_eq_zero_iff.mp (by omega)
  cases hext.makes
  have hfront : ByteArray.empty ++ ⟨#[1, 2]⟩ = ByteArray.empty ++ ByteArray.extract _ 0 m :=
    hext.bytes_eq
  have hlegible := htwice rfl x hagain
  rw [Writer.accepted, ← hfront] at hlegible
  exact ⟨w, v, x, hstart, rfl, hwrite, hagain, hlegible⟩

theorem failed_write_adds_bytes :
    ∃ w v : Writer MemorySink,
      Writer.start (MemorySink.new .none) 4 (Codec.stored.refusing 1) = (.ok w, w.inner) ∧
      w.write ⟨#[1, 2, 3, 4, 5]⟩ =
        (.error (.invalidData "corrupt trace file: codec refused to compress"), v) ∧
      w.Legible (Codec.stored.refusing 1) .empty .empty ∧
      v.Legible (Codec.stored.refusing 1) .empty ⟨#[1, 2, 3, 4]⟩ ∧
      ¬ v.Legible (Codec.stored.refusing 1) .empty .empty := by
  let w := Writer.onMemory (Codec.stored.refusing 1) ⟨4, by decide, by decide⟩
  let v := (w.stage ⟨#[1, 2, 3, 4]⟩).refused
  have hstart : Writer.start (MemorySink.new .none) 4 (Codec.stored.refusing 1) =
      (.ok w, w.inner) := Writer.start_onMemory w.codec w.chunkSize (by decide)
  have hfail : w.append ⟨#[1, 2, 3, 4, 5]⟩ =
      (.error (.corrupt (.codec "codec refused to compress")), v) :=
    Writer.append_of_refuses (by decide) (by decide) (by decide) rfl
  have hwrite : w.write ⟨#[1, 2, 3, 4, 5]⟩ =
      (.error (.invalidData "corrupt trace file: codec refused to compress"), v) := by
    rw [Writer.write, hfail]
    rfl
  obtain ⟨hfresh, -⟩ := Writer.fresh_of_start hstart
  have hstep := hfresh.inStep (Codec.faithful_stored.refusing 1)
  have hlegible := hstep.legible_of_append_failed hfail (by simp)
  rw [Writer.taken, hfail, if_neg (by simp)] at hlegible
  refine ⟨w, v, hstart, hwrite, hstep.legible, hlegible, ?_⟩
  rintro ⟨file, chunks, -, -, -, hsame⟩
  have hsize := congrArg ByteArray.size hsame
  rw [ByteArray.size_append] at hsize
  change _ + 4 = 0 at hsize
  omega

end TraceCapture
