import TraceCapture.Proofs.Block.Lz4.Lawful
import TraceCapture.Proofs.Reader.Rejection
import TraceCapture.Proofs.Reader.Stream
import TraceCapture.Proofs.Stream.Memory

set_option autoImplicit false

/-!
# Reading on behind corrupt entries

A reader that has failed can be called again. Up to its first failure it delivers bytes of decoded
chunks only, in their order, and never comes past the entry that it rejects. Then it goes on from
where the rejected entry has left it, and from there on the same holds again until it fails the next
time. What that course starts with is no data, though: after a block that does not decode it is the
buffer of the codec, and after a length that no block has the bytes that stand in place of the block
are taken for entries.
-/

namespace TraceCapture

inductive StreamCall where
  | read (call : Reader.ReadCall)
  | skip (n : Nat)

inductive Answer where
  | bytes (b : ByteArray)
  | skipped
  | failed (o : Outcome TraceError Unit)

namespace Codec

variable (codec : Codec) (file : ByteArray)

def Ended (course : Course) (p : Nat) : Prop :=
  ∃ n i, Spans codec file course.index n i ∧ p = course.left.size + n ∧
    codec.entryAt? file i = .ok none

/-- A stream that has come to a place is led on by the entry that comes next on its course or by
one behind, which is rejected. -/
def Fails (course : Course) (p : Nat) (o : Outcome TraceError Unit) (next : Course) : Prop :=
  ∃ n i, Spans codec file course.index n i ∧ p ≤ course.left.size + n ∧ Rejects codec file i o next

/-- What calls may answer from a place of the stream on. -/
inductive Admits : Course → Nat → List (StreamCall × Answer) → Prop where
  | nil {course : Course} {p : Nat} : Admits course p []
  | read {course : Course} {p : Nat} {call : Reader.ReadCall} {b : ByteArray}
      {rest : List (StreamCall × Answer)} (hb : PieceAt codec file course p b)
      (hsize : b.size = call.size ∨ b.size < call.size ∧ Ended codec file course (p + b.size))
      (hrest : Admits course (p + b.size) rest) :
      Admits course p ((.read call, .bytes b) :: rest)
  | skip {course : Course} {p n m : Nat} {rest : List (StreamCall × Answer)}
      (hm : m = n ∨ m < n ∧ Ended codec file course (p + m))
      (hrest : Admits course (p + m) rest) : Admits course p ((.skip n, .skipped) :: rest)
  | failed {course next : Course} {p : Nat} {call : StreamCall} {o : Outcome TraceError Unit}
      {rest : List (StreamCall × Answer)} (h : Fails codec file course p o next)
      (hrest : Admits next 0 rest) : Admits course p ((call, .failed o) :: rest)

end Codec

namespace Reader

variable {σ : Type}

def answer {α : Type} (f : α → Answer) : Outcome TraceError α × Reader σ → Answer × Reader σ
  | (.ok a, r) => (f a, r)
  | (.error e, r) => (.failed (.error e), r)
  | (.panicked v, r) => (.failed (.panicked v), r)

end Reader

def StreamCall.perform {σ : Type} [Source σ] (r : Reader σ) : StreamCall → Answer × Reader σ
  | read call => Reader.answer .bytes (call.perform r)
  | skip n => Reader.answer (fun _ => .skipped) (r.skip n)

namespace Reader

variable {σ : Type}

def transcript [Source σ] (r : Reader σ) : List StreamCall → List (StreamCall × Answer)
  | [] => []
  | call :: calls => (call, (call.perform r).1) :: (call.perform r).2.transcript calls

variable [LawfulSource σ]

/-- The reader has come to a place of the stream on its course. The next `ahead` bytes will be
stepped over, and zeros may stand for them. -/
structure Tracks (codec : Codec) (file : ByteArray) (course : Course) (p ahead : Nat)
    (r : Reader σ) : Prop where
  codec_eq : r.codec = codec
  cursor_le : r.cursor ≤ r.cache.size
  piece : codec.PieceAt file course (p + ahead) (r.cache.extract (r.cursor + ahead) r.cache.size)
  next : ∃ n i, codec.Spans file course.index n i ∧ p + r.available = course.left.size + n ∧
    (r.exhausted = true ∧ codec.entryAt? file i = .ok none ∨
      r.exhausted = false ∧ Source.At r.inner file i)

def Recovers (codec : Codec) (file : ByteArray) (course : Course) (p : Nat)
    (o : Outcome TraceError Unit) (r : Reader σ) : Prop :=
  ∃ next, codec.Fails file course p o next ∧ Starts codec file next r

def Proceeds {α : Type} (codec : Codec) (file : ByteArray) (course : Course) (p : Nat)
    (good : α → Reader σ → Prop) : Outcome TraceError α × Reader σ → Prop
  | (.ok a, r) => good a r
  | (.error e, r) => Recovers codec file course p (.error e) r
  | (.panicked v, r) => Recovers codec file course p (.panicked v) r

/-- A call for `n` bytes has got these, and fewer only at the end of the entries. -/
structure Delivered (codec : Codec) (file : ByteArray) (course : Course) (p n : Nat)
    (b : ByteArray) (r : Reader σ) : Prop where
  piece : codec.PieceAt file course p b
  size_eq : b.size = n ∨ b.size < n ∧ codec.Ended file course (p + b.size)
  tracks : Tracks codec file course (p + b.size) 0 r

def Skipped (codec : Codec) (file : ByteArray) (course : Course) (p n : Nat) (r : Reader σ) :
    Prop :=
  ∃ m, (m = n ∨ m < n ∧ codec.Ended file course (p + m)) ∧ Tracks codec file course (p + m) 0 r

variable {codec : Codec} {file : ByteArray} {course : Course} {p ahead : Nat} {r r' : Reader σ}

theorem pieceAt_extract_of_le {b : ByteArray} {i : Nat} (h : b.size ≤ i) :
    codec.PieceAt file course p (b.extract i b.size) := by
  rw [ByteArray.extract_eq_empty_iff.mpr (by omega)]
  exact Codec.pieceAt_empty

theorem Starts.tracks (h : Starts codec file course r) : Tracks codec file course 0 0 r where
  codec_eq := h.codec_eq
  cursor_le := by rw [h.cursor_eq]; exact Nat.zero_le _
  piece := by
    rw [h.cursor_eq, h.cache_eq, Nat.add_zero, ByteArray.extract_zero_size]
    intro k x hx
    rw [Nat.zero_add]
    exact .left hx
  next := ⟨0, course.index, .refl, by rw [available, h.cursor_eq, h.cache_eq]; omega,
    .inr ⟨h.exhausted_eq, h.at_index⟩⟩

theorem Tracks.advance (h : Tracks codec file course p ahead r) {k : Nat} (hk : k ≤ r.available) :
    Tracks codec file course (p + k) (ahead - k) { r with cursor := r.cursor + k } where
  codec_eq := h.codec_eq
  cursor_le := by
    have hle := h.cursor_le
    unfold available at hk
    dsimp only
    omega
  piece := by
    have hpiece := h.piece.extract (k - ahead)
      (r.cache.extract (r.cursor + ahead) r.cache.size).size
    rw [Bytes.extract_rest_rest] at hpiece
    have hp : p + k + (ahead - k) = p + ahead + (k - ahead) := by omega
    have hcursor : r.cursor + k + (ahead - k) = r.cursor + ahead + (k - ahead) := by omega
    dsimp only
    rwa [hp, hcursor]
  next := by
    obtain ⟨n, i, hspans, heq, hsource⟩ := h.next
    refine ⟨n, i, hspans, ?_, hsource⟩
    unfold available at heq hk ⊢
    dsimp only
    omega

theorem Tracks.loadChunk (h : Tracks codec file course p ahead r) (h0 : r.available = 0)
    (hex : r.exhausted = false) (skip : Nat) :
    Proceeds codec file course p (fun _ r' => Tracks codec file course p skip r')
      (r.loadChunk skip) := by
  obtain ⟨n, i, hspans, heq, ⟨htrue, -⟩ | ⟨-, hat⟩⟩ := h.next
  · rw [hex] at htrue
    cases htrue
  have hp : p = course.left.size + n := by omega
  have hload := loads_loadChunk h.codec_eq hex hat skip
  generalize r.loadChunk skip = step at hload
  cases hload with
  | @ends r' hnone hcodec hex' hcache hcursor =>
    have h0' : r'.available = 0 := by
      rw [available, hcache, ByteArray.size_empty, Nat.zero_sub]
    exact {
      codec_eq := hcodec
      cursor_le := by rw [hcursor]; exact Nat.zero_le _
      piece := pieceAt_extract_of_le (by rw [hcache]; exact Nat.zero_le _)
      next := ⟨n, i, hspans, by rw [h0', hp]; rfl, .inl ⟨hex', hnone⟩⟩ }
  | @chunk r' e size he hsize hstarts hcache hdecoded =>
    have havailable : r'.available = size := by
      rw [available, hstarts.cursor_eq, hcache, Nat.sub_zero]
    exact {
      codec_eq := hstarts.codec_eq
      cursor_le := by rw [hstarts.cursor_eq]; exact Nat.zero_le _
      piece := by
        rw [hstarts.cursor_eq, Nat.zero_add]
        -- Only a chunk that is skipped in full is not decoded: of it nothing is left to be read.
        obtain hskip | ⟨call, hok, hfit⟩ := hdecoded
        · exact pieceAt_extract_of_le (hcache ▸ hskip)
        · have hchunk : codec.PieceAt file course p r'.cache := by
            intro k x hx
            rw [hfit] at hx
            rw [hp]
            exact .decoded hspans he hsize hok hx
          exact hchunk.extract skip _
      next := ⟨n + size, e.stop, .entry hspans he hsize, by rw [havailable, hp]; omega,
        .inr ⟨hstarts.exhausted_eq, hstarts.at_index⟩⟩ }
  | @rejected r' o next ho hreject hstarts =>
    have hrecovers : Recovers codec file course p o r' :=
      ⟨next, ⟨n, i, hspans, Nat.le_of_eq hp, hreject⟩, hstarts⟩
    cases o with
    | ok => exact absurd rfl ho
    | error | panicked => exact hrecovers

theorem Recovers.mono {p' : Nat} {o : Outcome TraceError Unit}
    (h : Recovers codec file course p' o r) (hp : p ≤ p') : Recovers codec file course p o r := by
  obtain ⟨next, ⟨n, i, hspans, hle, hreject⟩, hstarts⟩ := h
  exact ⟨next, ⟨n, i, hspans, Nat.le_trans hp hle, hreject⟩, hstarts⟩

theorem Proceeds.mono {α : Type} {p' : Nat} {good good' : α → Reader σ → Prop}
    {o : Outcome TraceError α × Reader σ} (h : Proceeds codec file course p' good o) (hp : p ≤ p')
    (himp : ∀ a r, good a r → good' a r) : Proceeds codec file course p good' o := by
  obtain ⟨_ | _ | _, r⟩ := o
  · exact himp _ _ h
  · exact Recovers.mono h hp
  · exact Recovers.mono h hp

theorem Proceeds.map {α β : Type} {good : β → Reader σ → Prop} {f : α → β}
    {o : Outcome TraceError α × Reader σ}
    (h : Proceeds codec file course p (fun a r' => good (f a) r') o) :
    Proceeds codec file course p good (o.1.map f, o.2) := by
  obtain ⟨_ | _ | _, r⟩ := o <;> exact h

theorem Tracks.ended (h : Tracks codec file course p ahead r) (hex : r.exhausted = true) :
    codec.Ended file course (p + r.available) := by
  obtain ⟨n, i, hspans, heq, ⟨-, hnone⟩ | ⟨hfalse, -⟩⟩ := h.next
  · exact ⟨n, i, hspans, heq, hnone⟩
  · rw [hex] at hfalse
    cases hfalse

theorem Tracks.cached (h : Tracks codec file course p 0 r) {k : Nat} (hk : k ≤ r.available) :
    codec.PieceAt file course p (r.cache.extract r.cursor (r.cursor + k)) := by
  have hpiece := h.piece.extract 0 k
  have hcut := (extract_step hk .empty).2
  rw [ByteArray.append_empty] at hcut
  rwa [Nat.add_zero, Nat.add_zero, hcut] at hpiece

theorem Tracks.readOn {start n : Nat} {out : ByteArray} (h : Tracks codec file course p 0 r)
    (hout : codec.PieceAt file course start out) (hp : p = start + out.size) (hle : out.size ≤ n) :
    Proceeds codec file course start (Delivered codec file course start n) (r.readOn n out) := by
  -- What was read so far stands at `start`; what comes next is what the reader has come to.
  fun_induction Reader.readOn r n out generalizing p with
  | case1 r out hn => exact ⟨hout, .inl (Nat.le_antisymm hle hn), hp ▸ h⟩
  | case2 r out hn h0 hex =>
    have hended := h.ended hex
    rw [h0, Nat.add_zero, hp] at hended
    exact ⟨hout, .inr ⟨Nat.lt_of_not_le hn, hended⟩, hp ▸ h⟩
  | case3 r out hn h0 hex r' hload ih =>
    have hnext := h.loadChunk h0 (Bool.eq_false_iff.mpr hex) 0
    rw [hload] at hnext
    exact ih hnext hout hp hle
  | case4 r out hn h0 hex e r' hload | case5 r out hn h0 hex v r' hload =>
    have hnext := h.loadChunk h0 (Bool.eq_false_iff.mpr hex) 0
    rw [hload] at hnext
    exact Recovers.mono hnext (by omega)
  | case6 r out hn h0 stop =>
    rename_i ih
    have hk : min r.available (n - out.size) ≤ r.available := Nat.min_le_left _ _
    have hnext := h.advance hk
    rw [Nat.zero_sub] at hnext
    have hpiece : codec.PieceAt file course (start + out.size) (r.cache.extract r.cursor stop) :=
      hp ▸ h.cached hk
    have hsize : (r.cache.extract r.cursor stop).size = min r.available (n - out.size) :=
      size_extract_cached hk
    refine ih hnext (hout.append hpiece) ?_ ?_ <;> rw [ByteArray.size_append, hsize] <;> omega

theorem Tracks.weaken (h : Tracks codec file course p 0 r) (n : Nat) :
    Tracks codec file course p n r where
  codec_eq := h.codec_eq
  cursor_le := h.cursor_le
  piece := by
    have hpiece := h.piece.extract n (r.cache.extract (r.cursor + 0) r.cache.size).size
    rwa [Bytes.extract_rest_rest] at hpiece
  next := h.next

theorem Tracks.load_behind {n : Nat} (h : Tracks codec file course p n r)
    (hn : ¬n ≤ min r.available n) (hex : r.exhausted = false) :
    Proceeds codec file course (p + min r.available n)
      (fun _ r' => Tracks codec file course (p + min r.available n) (n - min r.available n) r')
      ({ r with cursor := r.cursor + min r.available n }.loadChunk (n - min r.available n)) := by
  have hnext := h.advance (Nat.min_le_left r.available n)
  refine hnext.loadChunk ?_ hex _
  unfold available at hn ⊢
  dsimp only
  omega

/-- Stepping over bytes, the reader may meet an entry that it has to reject. -/
theorem Tracks.skipOn {n : Nat} (h : Tracks codec file course p n r) :
    Proceeds codec file course p (fun _ => Skipped codec file course p n) (r.skipOn n) := by
  fun_induction Reader.skipOn r n generalizing p with
  | case1 r n step stepped =>
    rename_i hn
    have hstep : step = n := Nat.le_antisymm (Nat.min_le_right _ _) hn
    have hnext : Tracks codec file course (p + step) (n - step) stepped :=
      h.advance (Nat.min_le_left r.available n)
    rw [hstep, Nat.sub_self] at hnext
    exact ⟨n, .inl rfl, hnext⟩
  | case2 r n step stepped hn =>
    rename_i hex
    have hstep : step = r.available := by omega
    have hended := h.ended hex
    have hnext : Tracks codec file course (p + step) (n - step) stepped :=
      h.advance (Nat.min_le_left r.available n)
    rw [← hstep] at hended
    -- The zeros that stand for skipped bytes are all stepped over.
    refine ⟨step, .inr ⟨Nat.lt_of_not_le hn, hended⟩, { hnext with piece := ?_ }⟩
    apply pieceAt_extract_of_le
    unfold available at hstep
    dsimp only [stepped]
    omega
  | case3 r n step stepped hn hex r' hload =>
    rename_i ih
    have hnext := h.load_behind hn (Bool.eq_false_iff.mpr hex)
    rw [hload] at hnext
    have hstep : step ≤ n := Nat.min_le_right _ _
    refine (ih hnext).mono (Nat.le_add_right p step) ?_
    rintro _ r'' ⟨m, hm, htracks⟩
    rw [Nat.add_assoc] at hm htracks
    exact ⟨step + m, hm.imp (by omega) fun hshort => ⟨by omega, hshort.2⟩, htracks⟩
  | case4 r n step stepped hn hex e r' | case5 r n step stepped hn hex v r' =>
    rename_i hload
    have hnext := h.load_behind hn (Bool.eq_false_iff.mpr hex)
    rw [hload] at hnext
    exact Recovers.mono hnext (Nat.le_add_right p _)

theorem Tracks.read (h : Tracks codec file course p 0 r) (call : ReadCall) :
    Proceeds codec file course p (Delivered codec file course p call.size) (call.perform r) := by
  have hread : ∀ n, Proceeds codec file course p (Delivered codec file course p n)
      (r.readBytes n) :=
    fun n => h.readOn Codec.pieceAt_empty rfl (Nat.zero_le n)
  cases call with
  | bytes n => exact hread n
  | byte =>
    refine (Proceeds.mono (hread 1) (Nat.le_refl p) ?_).map.map
    intro b r' hb
    have hone : b.size ≤ 1 := hb.size_eq.elim Nat.le_of_eq fun hshort => Nat.le_of_lt hshort.1
    rwa [Bytes.mk_head_toArray hone]

theorem Tracks.skip (h : Tracks codec file course p 0 r) (n : Nat) :
    Proceeds codec file course p (fun _ => Skipped codec file course p n) (r.skip n) := by
  unfold Reader.skip
  split
  · next hend =>
    simp only [endOfData, Bool.and_eq_true, beq_iff_eq] at hend
    have hended := h.ended hend.1
    rw [hend.2] at hended
    obtain rfl | hn := Nat.eq_zero_or_pos n
    · exact ⟨0, .inl rfl, h⟩
    · exact ⟨0, .inr ⟨hn, hended⟩, h⟩
  · apply Proceeds.map
    exact (h.weaken n).skipOn

theorem Tracks.admits (h : Tracks codec file course p 0 r) (calls : List StreamCall) :
    codec.Admits file course p (r.transcript calls) := by
  induction calls generalizing course p r with
  | nil => exact .nil
  | cons call calls ih =>
    have hfailed : ∀ {o} {r' : Reader σ}, Recovers codec file course p o r' →
        codec.Admits file course p ((call, .failed o) :: r'.transcript calls) := by
      rintro o r' ⟨next, hfails, hstarts⟩
      exact .failed hfails (ih hstarts.tracks)
    cases call with
    | read call =>
      have hcall := h.read call
      simp only [transcript, StreamCall.perform]
      generalize call.perform r = step at hcall
      obtain ⟨_ | _ | _, r'⟩ := step
      · obtain ⟨hb, hsize, htracks⟩ := hcall
        exact .read hb hsize (ih htracks)
      · exact hfailed hcall
      · exact hfailed hcall
    | skip n =>
      have hcall := h.skip n
      simp only [transcript, StreamCall.perform]
      generalize r.skip n = step at hcall
      obtain ⟨_ | _ | _, r'⟩ := step
      · obtain ⟨m, hm, htracks⟩ := hcall
        exact .skip hm (ih htracks)
      · exact hfailed hcall
      · exact hfailed hcall

theorem tracks_start {s : σ} {i : Nat} (hat : Source.At s file i) {codec : Codec} {r : Reader σ}
    (h : start s codec = .ok r) : Tracks codec file ⟨.empty, magic.size⟩ 0 0 r := by
  obtain ⟨hbad, hgood⟩ := start_eq hat codec
  by_cases hmagic : file.extract 0 magic.size = magic
  · obtain ⟨inner, length, hat', hstart⟩ := hgood hmagic
    have hfresh : Starts codec file ⟨.empty, magic.size⟩ (fresh inner codec length) :=
      ⟨rfl, rfl, rfl, rfl, hat'⟩
    have hload := hfresh.tracks.loadChunk rfl rfl 0
    rw [hstart] at h
    generalize (fresh inner codec length).loadChunk 0 = step at h hload
    obtain ⟨_ | _ | _, r'⟩ := step <;> cases h
    exact hload
  · rw [hbad hmagic] at h
    cases h

end Reader

/-- Whatever the file, the codec and the calls are, also calls after errors: up to the first failure
all bytes are those of decoded chunks, in their order and not beyond the entry that is rejected.
Behind a failure this holds of the course that the rejected entry leaves. -/
theorem corruption_ends_the_course {σ : Type} [LawfulSource σ] {source : σ} {codec : Codec}
    {r : Reader σ} (hsource : Source.FaultFree source) (h : Reader.start source codec = .ok r)
    (calls : List StreamCall) :
    codec.Admits (LawfulSource.contents source) ⟨.empty, magic.size⟩ 0 (r.transcript calls) :=
  (Reader.tracks_start ⟨hsource, rfl, rfl⟩ h).admits calls

def undecodableFile : ByteArray :=
  ⟨#[0x61, 0x74, 4, 0, 0, 0, 0, 0, 0, 0, 5, 0, 0, 0, 4, 0, 0, 0, 0]⟩

def undecodableReader : Reader MemorySource :=
  { inner := ⟨undecodableFile, 10, 2, false, .none⟩, codec := .lz4 .checked, cache := .empty,
    cursor := 0, bufferSize := 4, chunk := 2, position := 10, fileLength := 19, exhausted := false,
    decompressions := 0, log := #[] }

theorem start_undecodableFile :
    Reader.start (MemorySource.new undecodableFile .none) (.lz4 .checked) =
      .ok undecodableReader := by
  have hfetched : Source.fetch (⟨undecodableFile, 2, 2, false, .none⟩ : MemorySource)
      ((Codec.lz4 .checked).maxCompressedSize maxChunkSize) =
        (.block 4 ⟨#[0, 0, 0, 0]⟩, undecodableReader.inner) :=
    Source.fetch_of_readFor (k := 2) rfl rfl (by decide) (by decide) rfl
  refine Reader.start_of_fetched rfl rfl (Source.readExact?_of_readFor (k := 2) rfl) hfetched ?_
  with_unfolding_all rfl

def undecodedReader : Reader MemorySource :=
  { undecodableReader with
    inner := ⟨undecodableFile, 19, 2, false, .none⟩, cache := ⟨#[0, 0, 0, 0]⟩, bufferSize := 5
    chunk := 10, position := 19, decompressions := 1 }

theorem decompress_undecodableFile (call : Nat) :
    (Codec.lz4 .checked).decompress call ⟨#[4, 0, 0, 0, 0]⟩ 4 =
      ⟨⟨#[]⟩, .error (.corrupt .lengthMismatch)⟩ := by
  with_unfolding_all rfl

theorem loadChunk_undecodableFile :
    undecodableReader.loadChunk 0 = (.error (.corrupt .lengthMismatch), undecodedReader) := by
  have hfetched : undecodableReader.fetched =
      (.block 5 ⟨#[4, 0, 0, 0, 0]⟩, undecodedReader.inner) :=
    Source.fetch_of_readFor (k := 2) rfl rfl (by decide) (by decide) rfl
  rw [Reader.loadChunk_eq, hfetched]
  refine (Reader.settle_decoding (r := undecodableReader) rfl (by decide : 0 < 4)
    (decompress_undecodableFile 0)).trans ?_
  with_unfolding_all rfl

theorem transcript_undecodableFile :
    undecodableReader.transcript [.read (.bytes 4), .read (.bytes 4)] =
      [(.read (.bytes 4), .failed (.error (.corrupt .lengthMismatch))),
        (.read (.bytes 4), .bytes ⟨#[0, 0, 0, 0]⟩)] := by
  have hfirst : undecodableReader.readBytes 4 =
      (.error (.corrupt .lengthMismatch), undecodedReader) :=
    Reader.readOn_of_load_failed (by decide) rfl rfl loadChunk_undecodableFile (by simp)
  have hsecond : undecodedReader.readBytes 4 =
      (.ok ⟨#[0, 0, 0, 0]⟩, { undecodedReader with cursor := 4 }) :=
    Reader.readBytes_cached (by decide)
  simp only [Reader.transcript, StreamCall.perform, Reader.ReadCall.perform, hfirst, Reader.answer,
    hsecond]

theorem corruption_ends_the_course_undecodable :
    Source.FaultFree (MemorySource.new undecodableFile .none) ∧
    Reader.start (MemorySource.new undecodableFile .none) (.lz4 .checked) = .ok undecodableReader ∧
    (Codec.lz4 .checked).Admits undecodableFile ⟨.empty, magic.size⟩ 0
      [(.read (.bytes 4), .failed (.error (.corrupt .lengthMismatch))),
        (.read (.bytes 4), .bytes ⟨#[0, 0, 0, 0]⟩)] := by
  have hfree : Source.FaultFree (MemorySource.new undecodableFile .none) :=
    (MemorySource.sound_new (by decide)).faultFree
  refine ⟨hfree, start_undecodableFile, ?_⟩
  have h := corruption_ends_the_course hfree start_undecodableFile
    [.read (.bytes 4), .read (.bytes 4)]
  rwa [transcript_undecodableFile] at h

theorem entryAt?_undecodableFile :
    (Codec.lz4 .checked).entryAt? undecodableFile 2 = .ok (some ⟨2, ⟨#[0, 0, 0, 0]⟩⟩) ∧
    (Codec.lz4 .checked).entryAt? undecodableFile 10 = .ok (some ⟨10, ⟨#[4, 0, 0, 0, 0]⟩⟩) ∧
    (Codec.lz4 .checked).entryAt? undecodableFile 19 = .ok none :=
  ⟨by with_unfolding_all rfl, by with_unfolding_all rfl, by with_unfolding_all rfl⟩

theorem spans_undecodableFile {n i : Nat}
    (h : (Codec.lz4 .checked).Spans undecodableFile magic.size n i) : i = 2 ∨ i = 10 ∨ i = 19 := by
  obtain ⟨hempty, hshort, hnone⟩ := entryAt?_undecodableFile
  induction h with
  | refl => exact .inl rfl
  | entry _ he _ ih =>
    obtain rfl | rfl | rfl := ih
    · rw [hempty] at he
      cases he
      exact .inr (.inl rfl)
    · rw [hshort] at he
      cases he
      exact .inr (.inr rfl)
    · rw [hnone] at he
      cases he

/-- No chunk of the file decodes to a byte, and still bytes are delivered. -/
theorem undecodable_buffer_is_delivered :
    (Codec.lz4 .checked).Lawful ∧
    Reader.start (MemorySource.new undecodableFile .none) (.lz4 .checked) = .ok undecodableReader ∧
    undecodableReader.transcript [.read (.bytes 4), .read (.bytes 4)] =
      [(.read (.bytes 4), .failed (.error (.corrupt .lengthMismatch))),
        (.read (.bytes 4), .bytes ⟨#[0, 0, 0, 0]⟩)] ∧
    ∀ p x, ¬(Codec.lz4 .checked).ByteAt undecodableFile ⟨.empty, magic.size⟩ p x := by
  refine ⟨Lz4.lawful_lz4 _, start_undecodableFile, transcript_undecodableFile, ?_⟩
  intro p x h
  cases h with
  | left hx => cases hx
  | decoded hspans he hsize hok hx =>
    obtain ⟨hempty, hshort, hnone⟩ := entryAt?_undecodableFile
    obtain rfl | rfl | rfl := spans_undecodableFile hspans
    · rw [hempty] at he
      cases he
      have hzero : (Codec.lz4 .checked).announced ⟨#[0, 0, 0, 0]⟩ = .ok 0 := rfl
      rw [hzero] at hsize
      cases hsize
      rw [Bytes.at?_eq_none (by rw [Bytes.size_fit]; exact Nat.zero_le _)] at hx
      cases hx
    · rw [hshort] at he
      cases he
      have hfour : (Codec.lz4 .checked).announced ⟨#[4, 0, 0, 0, 0]⟩ = .ok 4 := rfl
      rw [hfour] at hsize
      cases hsize
      rw [decompress_undecodableFile] at hok
      cases hok
    · rw [hnone] at he
      cases he

end TraceCapture
