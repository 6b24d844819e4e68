import TraceCapture.Proofs.Reader.Stream

set_option autoImplicit false

namespace TraceCapture

namespace Reader

variable {σ : Type}

inductive ReaderCall where
  | read (call : ReadCall)
  | skip (n : Nat)
  | seek (o : Offset)

def ReaderCall.perform [Source σ] (r : Reader σ) : ReaderCall → Reader σ
  | read call => (call.perform r).2
  | skip n => (r.skip n).2
  | seek o => (r.setCurrentOffset o).2

def ReaderCall.outcome [Source σ] (r : Reader σ) : ReaderCall → Outcome TraceError Unit
  | read call => (call.perform r).1.map fun _ => ()
  | skip n => (r.skip n).1.map fun _ => ()
  | seek o => (r.setCurrentOffset o).1

def ReaderCall.Within (places : Nat → Prop) : ReaderCall → Prop
  | read _ | skip _ => True
  | seek o => places o.chunk

def ReaderCall.Onward (call : ReaderCall) : Prop := call.Within fun _ => False

def performAll [Source σ] (r : Reader σ) (calls : List ReaderCall) : Reader σ :=
  calls.foldl ReaderCall.perform r

/-- The readers that any calls bring an opened one to. -/
inductive Opened [Source σ] (source : σ) (codec : Codec) : Reader σ → Prop where
  | start {r : Reader σ} (h : Reader.start source codec = .ok r) : Opened source codec r
  | call {r : Reader σ} (call : ReaderCall) (h : Opened source codec r) :
      Opened source codec (call.perform r)

/-- The readers that a reader passes through when it is called, if seeks lead to these places. -/
inductive Moves [Source σ] (places : Nat → Prop) (first : Reader σ) : Reader σ → Prop where
  | refl : Moves places first first
  | load {r : Reader σ} (h : Moves places first r) (hr : r.exhausted = false) (skip : Nat) :
      Moves places first (r.loadChunk skip).2
  | step {r : Reader σ} {k : Nat} (h : Moves places first r) (hk : k ≤ r.available) :
      Moves places first { r with cursor := r.cursor + k }
  | seek {r : Reader σ} {n : Nat} {inner : σ} (h : Moves places first r) (hn : places n)
      (hs : Source.seekStart r.inner n = (.ok (), inner)) :
      Moves places first { r with inner, position := n, exhausted := false }
  | refused {r : Reader σ} {n : Nat} {e : IoError} {inner : σ} (h : Moves places first r)
      (hs : Source.seekStart r.inner n = (.error e, inner)) : Moves places first { r with inner }
  | place {r : Reader σ} {w : Nat} (h : Moves places first r) (hw : w ≤ r.cache.size) :
      Moves places first { r with cursor := w }

def LoadPanics [Source σ] (places : Nat → Prop) (first : Reader σ) (v : Violation) : Prop :=
  ∃ r skip, Moves places first r ∧ (r.loadChunk skip).1 = .panicked v

structure Passes [Source σ] {α : Type} (places : Nat → Prop) (first : Reader σ)
    (o : Outcome TraceError α × Reader σ) : Prop where
  moves : Moves places first o.2
  panics : ∀ v, o.1 = .panicked v → LoadPanics places first v

structure Kept [Source σ] (P : Reader σ → Prop) : Prop where
  load : ∀ {r : Reader σ}, P r → r.exhausted = false → ∀ skip, P (r.loadChunk skip).2
  step : ∀ {r : Reader σ} {k : Nat}, P r → k ≤ r.available → P { r with cursor := r.cursor + k }

structure Leaves [Source σ] {α : Type} (P : Reader σ → Prop)
    (o : Outcome TraceError α × Reader σ) : Prop where
  left : P o.2
  panics : ∀ v, o.1 = .panicked v → ∃ r skip, P r ∧ (r.loadChunk skip).1 = .panicked v

section

variable [Source σ] {places : Nat → Prop} {first r : Reader σ}

/-- Nothing in the load of a chunk panics but the codec. -/
theorem loadChunk_panicked {skip : Nat} {v : Violation} (h : (r.loadChunk skip).1 = .panicked v) :
    ∃ call block room, block.size ≤ Source.remaining r.inner ∧
      (r.codec.decompress call block room).ending = .panicked v := by
  rw [loadChunk_eq] at h
  unfold settle at h
  dsimp only at h
  split at h
  · cases h
  · cases h
  · cases h
  · next length block hblock =>
    split at h
    · cases h
    unfold cacheBlock at h
    split at h
    · exact ⟨_, block, _, size_fetched_le hblock, h⟩
    · cases h

theorem Leaves.map {P : Reader σ → Prop} {α β : Type} {o : Outcome TraceError α × Reader σ}
    (h : Leaves P o) (f : α → β) : Leaves P (o.1.map f, o.2) :=
  ⟨h.left, fun v hv => h.panics v (Outcome.map_eq_panicked.mp hv)⟩

theorem Leaves.of_ok {P : Reader σ → Prop} {α : Type} (h : P r) (a : α) : Leaves P (.ok a, r) :=
  ⟨h, nofun⟩

theorem Leaves.of_error {P : Reader σ → Prop} {α : Type} (h : P r) (e : TraceError) :
    Leaves P ((.error e : Outcome TraceError α), r) :=
  ⟨h, nofun⟩

namespace Kept

variable {P : Reader σ → Prop}

theorem loadChunk (hP : Kept P) (h : P r) (hr : r.exhausted = false) (skip : Nat) :
    Leaves P (r.loadChunk skip) :=
  ⟨hP.load h hr skip, fun _ hv => ⟨r, skip, h, hv⟩⟩

theorem readOn (hP : Kept P) (h : P r) (n : Nat) (out : ByteArray) :
    Leaves P (r.readOn n out) := by
  fun_induction Reader.readOn r n out with
  | case1 r out hn => exact .of_ok h _
  | case2 r out hn h0 hr => exact .of_ok h _
  | case3 r out hn h0 hr r' hload ih =>
    have hnext := hP.load h (Bool.eq_false_iff.mpr hr) 0
    rw [hload] at hnext
    exact ih hnext
  | case4 r out hn h0 hr e r' hload =>
    have hnext := hP.load h (Bool.eq_false_iff.mpr hr) 0
    rw [hload] at hnext
    exact .of_error hnext e
  | case5 r out hn h0 hr v r' hload =>
    have hnext := hP.loadChunk h (Bool.eq_false_iff.mpr hr) 0
    rw [hload] at hnext
    refine ⟨hnext.left, fun w hw => hnext.panics w ?_⟩
    cases hw
    rfl
  | case6 r out hn h0 stop ih => exact ih (hP.step h (Nat.min_le_left _ _))

theorem skipOn (hP : Kept P) (h : P r) (n : Nat) : Leaves P (r.skipOn n) := by
  have hstep : ∀ {r : Reader σ}, P r → ∀ n, P { r with cursor := r.cursor + min r.available n } :=
    fun h n => hP.step h (Nat.min_le_left _ n)
  fun_induction Reader.skipOn r n with
  | case1 r n step stepped | case2 r n step stepped => exact .of_ok (hstep h n) _
  | case3 r n step stepped hn hr r' hload ih =>
    have hnext := hP.load (hstep h n) (Bool.eq_false_iff.mpr hr) (n - step)
    rw [hload] at hnext
    exact ih hnext
  | case4 r n step stepped hn hr e r' hload | case5 r n step stepped hn hr v r' hload =>
    have hnext := hP.loadChunk (hstep h n) (Bool.eq_false_iff.mpr hr) (n - step)
    rwa [hload] at hnext

theorem call (hP : Kept P) (h : P r) {call : ReaderCall} (hcall : call.Onward) :
    Leaves P (call.outcome r, call.perform r) := by
  cases call with
  | read call =>
    cases call with
    | bytes n => exact (hP.readOn h n .empty).map _
    | byte => exact ((hP.readOn h 1 .empty).map _).map _ |>.map _
  | skip n =>
    change Leaves P ((r.skip n).1.map _, (r.skip n).2)
    unfold Reader.skip
    split
    · exact .of_ok h _
    · exact ((hP.skipOn h n).map _).map _
  | seek o => exact hcall.elim

theorem performAll (hP : Kept P) (h : P r) {calls : List ReaderCall}
    (hcalls : ∀ call ∈ calls, call.Onward) : P (r.performAll calls) := by
  induction calls generalizing r with
  | nil => exact h
  | cons call calls ih =>
    exact ih (hP.call h (hcalls call List.mem_cons_self)).left
      fun next hnext => hcalls next (List.mem_cons_of_mem call hnext)

end Kept

theorem kept_moves : Kept (Moves places first) :=
  ⟨fun h hr skip => h.load hr skip, fun h hk => h.step hk⟩

theorem Leaves.passes {α : Type} {o : Outcome TraceError α × Reader σ}
    (h : Leaves (Moves places first) o) : Passes places first o :=
  ⟨h.left, h.panics⟩

theorem Moves.setCurrentOffset (h : Moves places first r) {o : Offset}
    (ho : places o.chunk) : Passes places first (r.setCurrentOffset o) := by
  unfold Reader.setCurrentOffset
  split
  · next e inner hs => exact ⟨h.refused hs, nofun⟩
  · next inner hs =>
    have hload := (kept_moves.loadChunk (h.seek ho hs) rfl 0).passes
    split
    · next r' hr' =>
      rw [hr'] at hload
      split
      · exact ⟨hload.moves, nofun⟩
      · next hw => exact ⟨hload.moves.place (Nat.le_of_not_lt hw), nofun⟩
    · exact hload

theorem Moves.call (h : Moves places first r) {call : ReaderCall} (hcall : call.Within places) :
    Passes places first (call.outcome r, call.perform r) := by
  cases call with
  | read call =>
    have honward : (ReaderCall.read call).Onward := trivial
    exact (kept_moves.call h honward).passes
  | skip n =>
    have honward : (ReaderCall.skip n).Onward := trivial
    exact (kept_moves.call h honward).passes
  | seek o => exact h.setCurrentOffset hcall

end

inductive Opening [Source σ] (source : σ) (codec : Codec) : Reader σ → Prop where
  | mk {s t inner : σ} {length : Nat} {b : ByteArray}
      (hend : Source.seekEnd source = (.ok length, s))
      (hstart : Source.seekStart s 0 = (.ok (), t))
      (hmagic : Source.readExact? t magic.size = (.ok (some b), inner)) :
      Opening source codec (fresh inner codec length)

theorem start_cases [Source σ] (source : σ) (codec : Codec) :
    (∃ e, Reader.start source codec = .error e) ∨ ∃ first, Opening source codec first ∧
      Reader.start source codec = (first.loadChunk 0).1.map fun _ => (first.loadChunk 0).2 := by
  unfold Reader.start
  split
  · exact .inl ⟨_, rfl⟩
  next length s hs =>
  split
  · exact .inl ⟨_, rfl⟩
  next t ht =>
  split
  · exact .inl ⟨_, rfl⟩
  · exact .inl ⟨_, rfl⟩
  next b inner hread =>
  split
  · exact .inr ⟨fresh inner codec length, .mk hs ht hread, rfl⟩
  · exact .inl ⟨_, rfl⟩

theorem start_eq_ok [Source σ] {source : σ} {codec : Codec} {r : Reader σ}
    (h : Reader.start source codec = .ok r) :
    ∃ first, Opening source codec first ∧ first.exhausted = false ∧
      first.loadChunk 0 = (.ok (), r) := by
  obtain ⟨e, he⟩ | ⟨first, hfirst, hload⟩ := start_cases source codec
  · rw [he] at h
    cases h
  · have hlive : first.exhausted = false := by
      cases hfirst
      rfl
    refine ⟨first, hfirst, hlive, ?_⟩
    rw [hload] at h
    generalize first.loadChunk 0 = step at h
    obtain ⟨_ | _ | _, next⟩ := step <;> cases h
    rfl

theorem moves_start [Source σ] {source : σ} {codec : Codec} {r : Reader σ} (places : Nat → Prop)
    (h : Reader.start source codec = .ok r) :
    ∃ first, Opening source codec first ∧ Moves places first r := by
  obtain ⟨first, hfirst, hlive, hload⟩ := start_eq_ok h
  have hmoves : Moves places first (first.loadChunk 0).2 := Moves.refl.load hlive 0
  rw [hload] at hmoves
  exact ⟨first, hfirst, hmoves⟩

theorem Opened.moves [Source σ] {source : σ} {codec : Codec} {r : Reader σ}
    (h : Opened source codec r) :
    ∃ first, Opening source codec first ∧ Moves (fun _ => True) first r := by
  induction h with
  | start h => exact moves_start _ h
  | call call _ ih =>
    obtain ⟨first, hfirst, hmoves⟩ := ih
    have hcall : call.Within fun _ => True := by cases call <;> trivial
    exact ⟨first, hfirst, (hmoves.call hcall).moves⟩

section

variable [LawfulSource σ] {source : σ} {codec : Codec} {r : Reader σ}

/-- A reader with this codec whose source was brought to where it is from `source`. -/
structure Over (source : σ) (codec : Codec) (r : Reader σ) : Prop where
  codec_eq : r.codec = codec
  visits : Source.Visits source r.inner

theorem Over.loadChunk (h : Over source codec r) (skip : Nat) :
    Over source codec (r.loadChunk skip).2 := by
  obtain ⟨hinner, hcodec⟩ := r.inner_settle skip r.fetched
  rw [loadChunk_eq]
  refine ⟨hcodec.trans h.codec_eq, hinner ▸ ?_⟩
  exact Source.fetch_keeps (fun _ n hv => hv.readExact? n) h.visits _

theorem Over.moves {places : Nat → Prop} {first : Reader σ} (h : Over source codec first)
    (hm : Moves places first r) : Over source codec r := by
  induction hm with
  | refl => exact h
  | load _ _ skip ih => exact ih.loadChunk skip
  | step _ _ ih | place _ _ ih => exact ⟨ih.codec_eq, ih.visits⟩
  | @seek r n _ _ _ hs ih | @refused r n _ _ _ hs ih =>
    have hv := ih.visits.seekStart n
    rw [hs] at hv
    exact ⟨ih.codec_eq, hv⟩

theorem Opening.over (h : Opening source codec r) : Over source codec r := by
  cases h with
  | mk hend hstart hmagic =>
    have hv := Source.Visits.refl (s := source) |>.seekEnd
    rw [hend] at hv
    have hv := hv.seekStart 0
    rw [hstart] at hv
    have hv := hv.readExact? magic.size
    rw [hmagic] at hv
    exact ⟨rfl, hv⟩

theorem Opened.over (h : Opened source codec r) : Over source codec r := by
  obtain ⟨first, hfirst, hmoves⟩ := h.moves
  exact hfirst.over.moves hmoves

end

end Reader

end TraceCapture
