import TraceCapture.Proofs.Bytes
import TraceCapture.Trace.Writer

set_option autoImplicit false

namespace TraceCapture

namespace Writer

variable {σ : Type}

def andThen (r : Outcome TraceError Unit × Writer σ)
    (next : Writer σ → Outcome TraceError Unit × Writer σ) : Outcome TraceError Unit × Writer σ :=
  match r with
  | (.ok (), w) => next w
  | r => r

@[simp] theorem andThen_ok (w : Writer σ)
    (next : Writer σ → Outcome TraceError Unit × Writer σ) : andThen (.ok (), w) next = next w :=
  rfl

theorem andThen_of_ne_ok {r : Outcome TraceError Unit × Writer σ}
    {next : Writer σ → Outcome TraceError Unit × Writer σ} (h : ∀ w, r ≠ (.ok (), w)) :
    andThen r next = r := by
  obtain ⟨o, w⟩ := r
  cases o with
  | ok => exact absurd rfl (h w)
  | error | panicked => rfl

theorem andThen_assoc (r : Outcome TraceError Unit × Writer σ)
    (f g : Writer σ → Outcome TraceError Unit × Writer σ) :
    andThen (andThen r f) g = andThen r fun w => andThen (f w) g := by
  obtain ⟨o, w⟩ := r
  cases o <;> rfl

theorem andThen_pure (r : Outcome TraceError Unit × Writer σ) :
    andThen r (fun w => (.ok (), w)) = r := by
  obtain ⟨o, w⟩ := r
  cases o <;> rfl

theorem andThen_eq_ok {r : Outcome TraceError Unit × Writer σ}
    {next : Writer σ → Outcome TraceError Unit × Writer σ} {w' : Writer σ} :
    andThen r next = (.ok (), w') ↔ ∃ w, r = (.ok (), w) ∧ next w = (.ok (), w') := by
  obtain ⟨o, w⟩ := r
  constructor
  · intro h
    cases o with
    | ok => exact ⟨w, rfl, h⟩
    | error | panicked => cases h
  · rintro ⟨v, hv, hn⟩
    rw [hv]
    exact hn

def stage (w : Writer σ) (b : ByteArray) : Writer σ := { w with staged := w.staged ++ b }

theorem stage_empty (w : Writer σ) : w.stage .empty = w := by
  rw [stage, ByteArray.append_empty]

theorem stage_stage (w : Writer σ) (a b : ByteArray) : (w.stage a).stage b = w.stage (a ++ b) := by
  simp only [stage, ByteArray.append_assoc]

theorem size_stage (w : Writer σ) (b : ByteArray) :
    (w.stage b).staged.size = w.staged.size + b.size :=
  ByteArray.size_append

def room (w : Writer σ) : Nat := w.chunkSize.val - w.staged.size

theorem size_stage_le {w : Writer σ} (h : w.staged.size ≤ w.chunkSize.val) (data : ByteArray)
    (i : Nat) : (w.stage (data.extract i (i + min (data.size - i) w.room))).staged.size ≤
      w.chunkSize.val := by
  rw [size_stage, ByteArray.size_extract]
  unfold room
  omega

variable [Sink σ]

theorem flush_eq (w : Writer σ) :
    w.flush = andThen w.flushChunk fun w =>
      ((Sink.flush w.inner).1.mapError .io, { w with inner := (Sink.flush w.inner).2 }) := by
  unfold flush
  generalize w.flushChunk = r
  obtain ⟨o, v⟩ := r
  cases o <;> rfl

theorem staged_of_flush {w w' : Writer σ} (h : w.flush = (.ok (), w')) : w'.staged = .empty := by
  rw [flush_eq, andThen_eq_ok] at h
  obtain ⟨v, hv, hflush⟩ := h
  have hstaged := staged_of_flushChunk hv
  cases (Prod.ext_iff.mp hflush).2
  exact hstaged

theorem flush_of_staged_eq_empty {w w' : Writer σ} (h0 : w.staged = .empty)
    (h : w.flush = (.ok (), w')) : w' = { w with inner := (Sink.flush w.inner).2 } := by
  have hchunk : w.flushChunk = (.ok (), w) := by
    rw [flushChunk, h0]
    rfl
  rw [flush_eq, hchunk, andThen_ok] at h
  exact (Prod.ext_iff.mp h).2.symm

theorem finish_eq_ok {w v : Writer σ} : w.finish = (.ok (), v) ↔ w.flush = (.ok (), v) := by
  unfold finish
  generalize w.flush = r
  obtain ⟨o, u⟩ := r
  cases o with
  | ok | error => exact Iff.rfl
  | panicked => exact ⟨nofun, nofun⟩

theorem appendFrom_eq (w : Writer σ) (data : ByteArray) (i : Nat) :
    w.appendFrom data i =
      if data.size ≤ i then (.ok (), w)
      else
        let j := i + min (data.size - i) w.room
        let more := w.stage (data.extract i j)
        if w.chunkSize.val ≤ more.staged.size then
          andThen more.flushChunk fun next => next.appendFrom data j
        else more.appendFrom data j := by
  rw [appendFrom]
  split
  · rfl
  · dsimp only
    split
    · next hfull =>
      refine Eq.trans ?_ (if_pos hfull).symm
      unfold stage room
      split
      · next h => rw [h, andThen_ok]
      · next h => exact (andThen_of_ne_ok h).symm
    · next hfull => exact (if_neg hfull).symm

theorem appendFrom_end {w : Writer σ} {data : ByteArray} {i : Nat} (h : data.size ≤ i) :
    w.appendFrom data i = (.ok (), w) := by
  rw [appendFrom_eq, if_pos h]

theorem appendFrom_fill {w : Writer σ} {data : ByteArray} {i : Nat} (hi : i < data.size)
    (hroom : i + w.room ≤ data.size) :
    w.appendFrom data i =
      andThen (w.stage (data.extract i (i + w.room))).flushChunk
        fun next => next.appendFrom data (i + w.room) := by
  rw [appendFrom_eq, if_neg (by omega), Nat.min_eq_right (by omega)]
  refine if_pos ?_
  rw [size_stage, ByteArray.size_extract]
  unfold room at *
  omega

theorem appendFrom_stage {w : Writer σ} {data : ByteArray} {i k : Nat}
    (hk : i + k ≤ data.size) (hroom : w.staged.size + k < w.chunkSize.val) :
    w.appendFrom data i = (w.stage (data.extract i (i + k))).appendFrom data (i + k) := by
  have hsize : (w.stage (data.extract i (i + k))).staged.size = w.staged.size + k := by
    rw [size_stage, ByteArray.size_extract]
    omega
  by_cases hi : data.size ≤ i
  · have hk0 : k = 0 := by omega
    rw [hk0, Nat.add_zero, ByteArray.extract_same, stage_empty]
  by_cases hrest : data.size ≤ i + k
  · have hmin : min (data.size - i) w.room = k := by
      unfold room
      omega
    rw [appendFrom_eq, if_neg hi, hmin]
    refine if_neg ?_
    rw [hsize]
    omega
  -- both sides stage the same bytes in their next round
  · have hj : i + k + min (data.size - (i + k)) (w.stage (data.extract i (i + k))).room =
        i + min (data.size - i) w.room := by
      unfold room
      rw [hsize]
      change _ + min _ (w.chunkSize.val - _) = _
      omega
    have hle : i + k ≤ i + min (data.size - i) w.room := by omega
    rw [appendFrom_eq, if_neg hi, appendFrom_eq (w.stage _), if_neg hrest, hj]
    dsimp only
    rw [stage_stage, ← ByteArray.extract_eq_extract_append_extract (i + k) (by omega) hle]
    rfl

theorem appendFrom_append_size_add (w : Writer σ) (a b : ByteArray) (i : Nat) :
    w.appendFrom (a ++ b) (a.size + i) = w.appendFrom b i := by
  have hend : ∀ i, (a ++ b).size ≤ a.size + i ↔ b.size ≤ i := by
    intro i
    rw [ByteArray.size_append]
    omega
  have hround : ∀ (w : Writer σ) i, a.size + i + min ((a ++ b).size - (a.size + i)) w.room =
      a.size + (i + min (b.size - i) w.room) := by
    intro w i
    rw [ByteArray.size_append]
    omega
  fun_induction appendFrom w b i with
  | case1 w i hi => rw [appendFrom_end ((hend i).mpr hi)]
  | case2 w i hi j more hfull next hflush ih =>
    rw [appendFrom_eq, if_neg (by rwa [hend]), hround]
    dsimp only
    rw [ByteArray.extract_append_size_add]
    refine (if_pos hfull).trans ?_
    change andThen more.flushChunk _ = _
    rw [hflush]
    exact ih
  | case3 w i hi j more hfull hflush =>
    rw [appendFrom_eq, if_neg (by rwa [hend]), hround]
    dsimp only
    rw [ByteArray.extract_append_size_add]
    refine (if_pos hfull).trans ?_
    exact andThen_of_ne_ok hflush
  | case4 w i hi j more hfull ih =>
    rw [appendFrom_eq, if_neg (by rwa [hend]), hround]
    dsimp only
    rw [ByteArray.extract_append_size_add]
    exact (if_neg hfull).trans ih

/-- Appending two pieces one after the other is appending them together. -/
theorem append_append (w : Writer σ) (a b : ByteArray) :
    w.append (a ++ b) = andThen (w.append a) fun w => w.append b := by
  have hsize : (a ++ b).size = a.size + b.size := ByteArray.size_append
  -- by induction on the rounds over `a`: one that fills the chunk also does so over `a ++ b`
  have split : ∀ (w : Writer σ) i, i ≤ a.size →
      w.appendFrom (a ++ b) i = andThen (w.appendFrom a i) fun w => w.append b := by
    intro w i hi
    fun_induction appendFrom w a i with
    | case1 w i hend =>
      have hi' : i = a.size + 0 := by omega
      rw [hi', appendFrom_append_size_add]
      rfl
    | case2 w i hlt j more hfull next hflush ih =>
      have hsz : w.chunkSize.val ≤ w.staged.size + (min j a.size - i) := by
        simpa [more] using hfull
      have hj : j = i + w.room := by
        unfold room
        omega
      rw [appendFrom_fill (by omega) (by omega), ← hj, Bytes.extract_append_left b (by omega)]
      change andThen more.flushChunk _ = _
      rw [hflush]
      exact ih (by omega)
    | case3 w i hlt j more hfull hflush =>
      have hsz : w.chunkSize.val ≤ w.staged.size + (min j a.size - i) := by
        simpa [more] using hfull
      have hj : j = i + w.room := by
        unfold room
        omega
      rw [appendFrom_fill (by omega) (by omega), ← hj, Bytes.extract_append_left b (by omega)]
      change andThen more.flushChunk _ = andThen more.flushChunk _
      rw [andThen_of_ne_ok hflush, andThen_of_ne_ok hflush]
    | case4 w i hlt j more hfull ih =>
      have hsz : w.staged.size + (min j a.size - i) < w.chunkSize.val := by
        simpa [more] using hfull
      have hj : i + (j - i) = j := by omega
      rw [appendFrom_stage (k := j - i) (by omega) (by omega), hj,
        Bytes.extract_append_left b (by omega)]
      exact ih (by omega)
  exact split w 0 (Nat.zero_le _)

theorem append_empty (w : Writer σ) : w.append .empty = (.ok (), w) :=
  appendFrom_end (Nat.le_refl _)

end Writer

inductive WriterCall where
  | append (data : ByteArray)
  | flush

namespace WriterCall

def bytes : List WriterCall → ByteArray
  | [] => .empty
  | append data :: calls => data ++ bytes calls
  | flush :: calls => bytes calls

theorem bytes_append (cs ds : List WriterCall) : bytes (cs ++ ds) = bytes cs ++ bytes ds := by
  induction cs with
  | nil => rw [List.nil_append, bytes, ByteArray.empty_append]
  | cons c cs ih => cases c <;> simp only [List.cons_append, bytes, ih, ByteArray.append_assoc]

end WriterCall

namespace Writer

variable {σ : Type} [Sink σ]

def perform (w : Writer σ) : WriterCall → Outcome TraceError Unit × Writer σ
  | .append data => w.append data
  | .flush => w.flush

def performAll (w : Writer σ) : List WriterCall → Outcome TraceError Unit × Writer σ
  | [] => (.ok (), w)
  | call :: calls => andThen (w.perform call) fun w => w.performAll calls

theorem performAll_append (w : Writer σ) (cs ds : List WriterCall) :
    w.performAll (cs ++ ds) = andThen (w.performAll cs) fun w => w.performAll ds := by
  induction cs generalizing w with
  | nil => rfl
  | cons c cs ih => simp only [List.cons_append, performAll, andThen_assoc, ih]

theorem performAll_singleton (w : Writer σ) (c : WriterCall) :
    w.performAll [c] = w.perform c :=
  andThen_pure _

end Writer

namespace WriterCall

/-- Two lists of calls that have the same outcome on every writer and leave it the same. -/
def Equivalent (cs ds : List WriterCall) : Prop :=
  ∀ (σ : Type) [Sink σ] (w : Writer σ), w.performAll cs = w.performAll ds

theorem Equivalent.refl (cs : List WriterCall) : Equivalent cs cs := fun _ _ _ => rfl

theorem Equivalent.symm {cs ds : List WriterCall} (h : Equivalent cs ds) : Equivalent ds cs :=
  fun σ _ w => (h σ w).symm

theorem Equivalent.trans {cs ds es : List WriterCall} (h : Equivalent cs ds)
    (h' : Equivalent ds es) : Equivalent cs es :=
  fun σ _ w => (h σ w).trans (h' σ w)

theorem Equivalent.append {cs ds cs' ds' : List WriterCall} (h : Equivalent cs cs')
    (h' : Equivalent ds ds') : Equivalent (cs ++ ds) (cs' ++ ds') := by
  intro σ _ w
  rw [Writer.performAll_append, Writer.performAll_append, h σ w]
  congr 1
  funext v
  exact h' σ v

theorem equivalent_append_append (a b : ByteArray) :
    Equivalent [.append a, .append b] [.append (a ++ b)] := by
  intro σ _ w
  rw [Writer.performAll_singleton, Writer.perform, Writer.append_append]
  change Writer.andThen (w.append a) (fun w => w.performAll [.append b]) = _
  simp only [Writer.performAll_singleton, Writer.perform]

theorem equivalent_append_empty : Equivalent [.append .empty] [] := by
  intro σ _ w
  rw [Writer.performAll_singleton]
  exact w.append_empty

end WriterCall

end TraceCapture
