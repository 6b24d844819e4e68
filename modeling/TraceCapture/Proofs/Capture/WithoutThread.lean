import TraceCapture.Proofs.Capture.FailureReports

set_option autoImplicit false

namespace TraceCapture

namespace CaptureSession

variable {σ : Type} {s : CaptureSession σ} {capacity : Nat} {piece data : ByteArray}

def accept (s : CaptureSession σ) (piece : ByteArray) : CaptureSession σ :=
  { s with
    shared := { s.shared with ring := s.shared.ring.put piece }
    queued := s.queued + piece.size }

/-- A write that nobody makes room for. All of it is accepted if a byte stays free behind it;
otherwise it fails, in an empty ring behind the first piece. -/
def writeAlone (s : CaptureSession σ) (data : ByteArray) : CaptureReply × CaptureSession σ :=
  if data.size < s.shared.ring.sizeToWrite then (.ok none, s.accept data)
  else if s.shared.ring.isEmpty then (.error .writerStopped, s.accept (data.extract 0 s.pieceSize))
  else (.error .writerStopped, s)

def requestFlush (s : CaptureSession σ) : CaptureSession σ :=
  { s with shared := { s.shared with flushRequested := s.shared.flushRequested + 1 } }

def callAlone (s : CaptureSession σ) : CaptureCall → CaptureReply × CaptureSession σ
  | .write data => s.writeAlone data
  | .flush => (.error .writerStopped, s.requestFlush)
  | .finish => (.error .writerStopped, { s with shared := { s.shared with stop := true } })
  | .drop => (.ok none, s)

structure Alone (capacity : Nat) (s : CaptureSession σ) : Prop where
  safe : Capture.Safe capacity ⟨s, .returned (.ok none)⟩
  joined : s.joined = true
  numbered : s.shared.flushed ≤ s.shared.flushRequested

namespace Alone

theorem ended (h : s.Alone capacity) : ∃ r, s.thread.phase = .ended r :=
  h.safe.joined_ended h.joined

theorem sound (h : s.Alone capacity) : s.shared.ring.Sound := h.safe.sound

theorem capacity_eq (h : s.Alone capacity) : s.shared.ring.capacity = capacity :=
  h.safe.capacity_eq

theorem sizeToWrite_eq (h : s.Alone capacity) :
    s.shared.ring.sizeToWrite = capacity - s.shared.ring.contents.size := by
  rw [Ring.Queues.sizeToWrite_eq h.sound, h.capacity_eq]

theorem size_lt (h : s.Alone capacity) : s.shared.ring.contents.size < capacity :=
  h.capacity_eq ▸ h.sound.size_lt

theorem isEmpty_iff (h : s.Alone capacity) :
    s.shared.ring.isEmpty = true ↔ s.shared.ring.sizeToWrite = capacity := by
  have hroom := h.sizeToWrite_eq
  have hlt := h.size_lt
  rw [Ring.Queues.isEmpty_iff h.sound, ← ByteArray.size_eq_zero_iff]
  omega

theorem pieceSize_eq (h : s.Alone capacity) : s.pieceSize = capacity - 1 :=
  congrArg (· - 1) h.capacity_eq

theorem accept (h : s.Alone capacity) (hroom : piece.size < s.shared.ring.sizeToWrite) :
    (s.accept piece).Alone capacity ∧
      (s.accept piece).shared.ring.contents = s.shared.ring.contents ++ piece := by
  obtain ⟨hsound, hcontents, hcap⟩ := h.sound.put hroom
  obtain ⟨r, hr⟩ := h.ended
  refine ⟨⟨?_, h.joined, h.numbered⟩, hcontents⟩
  refine ⟨hcap.trans h.capacity_eq, h.safe.capacity_ge, hsound, trivial, ?_,
    h.safe.joined_ended, nofun⟩
  change s.thread.phase.Fits _
  rw [hr]
  trivial

end Alone

structure Took (capacity : Nat) (s : CaptureSession σ) (data : ByteArray) (n : Nat)
    (s' : CaptureSession σ) : Prop where
  alone : s'.Alone capacity
  thread_eq : s'.thread = s.thread
  queued_eq : s'.queued = s.queued + n
  contents_eq : s'.shared.ring.contents = s.shared.ring.contents ++ data.extract 0 n
  le_size : n ≤ data.size

theorem Took.account {n : Nat} {s' : CaptureSession σ} (h : s.Took capacity data n s')
    (hs : s.Alone capacity) :
    s'.queued + s'.shared.ring.sizeToWrite = s.queued + s.shared.ring.sizeToWrite := by
  have hqueued := h.queued_eq
  have hroom := hs.sizeToWrite_eq
  have hroom' := h.alone.sizeToWrite_eq
  have hlt := h.alone.size_lt
  have hsize := congrArg ByteArray.size h.contents_eq
  rw [ByteArray.size_append, ByteArray.size_extract, Nat.min_eq_left h.le_size] at hsize
  omega

namespace Alone

theorem took_accept (h : s.Alone capacity) (data : ByteArray) {n : Nat} (hn : n ≤ data.size)
    (hroom : n < s.shared.ring.sizeToWrite) :
    s.Took capacity data n (s.accept (data.extract 0 n)) := by
  have hsize : (data.extract 0 n).size = n := by
    rw [ByteArray.size_extract, Nat.min_eq_left hn, Nat.sub_zero]
  obtain ⟨halone, hcontents⟩ := h.accept (hsize.symm ▸ hroom)
  exact ⟨halone, rfl, congrArg (s.queued + ·) hsize, hcontents, hn⟩

theorem took_nothing (h : s.Alone capacity) (data : ByteArray) : s.Took capacity data 0 s := by
  refine ⟨h, rfl, rfl, ?_, Nat.zero_le _⟩
  rw [ByteArray.extract_same, ByteArray.append_empty]

theorem writeAlone (h : s.Alone capacity) (data : ByteArray) :
    ∃ n, s.Took capacity data n (s.writeAlone data).2 ∧
      (data.size < s.shared.ring.sizeToWrite → (s.writeAlone data).1 = .ok none ∧ n = data.size) ∧
      (s.shared.ring.sizeToWrite ≤ data.size → (s.writeAlone data).1 = .error .writerStopped ∧
        n = if s.shared.ring.sizeToWrite = capacity then capacity - 1 else 0) := by
  unfold CaptureSession.writeAlone
  split
  · next hroom =>
    refine ⟨data.size, ?_, fun _ => ⟨rfl, rfl⟩, fun hfull => absurd hroom (Nat.not_lt.mpr hfull)⟩
    have htook := h.took_accept data (Nat.le_refl _) hroom
    rwa [ByteArray.extract_zero_size] at htook
  · next hfull =>
    rw [Nat.not_lt] at hfull
    have hnot : ¬ data.size < s.shared.ring.sizeToWrite := Nat.not_lt.mpr hfull
    split
    · next hempty =>
      have hall := h.isEmpty_iff.mp hempty
      have hlt := h.size_lt
      rw [h.pieceSize_eq]
      exact ⟨capacity - 1, h.took_accept data (by omega) (by omega), fun hroom => absurd hroom hnot,
        fun _ => ⟨rfl, (if_pos hall).symm⟩⟩
    · next hsome =>
      exact ⟨0, h.took_nothing data, fun hroom => absurd hroom hnot,
        fun _ => ⟨rfl, (if_neg fun hall => hsome (h.isEmpty_iff.mpr hall)).symm⟩⟩

theorem callAlone (h : s.Alone capacity) (call : CaptureCall) :
    (s.callAlone call).2.Alone capacity ∧ (s.callAlone call).2.thread = s.thread ∧
      s.queued ≤ (s.callAlone call).2.queued ∧
      (s.callAlone call).2.queued + (s.callAlone call).2.shared.ring.sizeToWrite =
        s.queued + s.shared.ring.sizeToWrite := by
  cases call with
  | write data =>
    obtain ⟨n, htook, -⟩ := h.writeAlone data
    exact ⟨htook.alone, htook.thread_eq, Nat.le.intro htook.queued_eq.symm, htook.account h⟩
  | flush =>
    exact ⟨⟨{ h.safe with }, h.joined, Nat.le_succ_of_le h.numbered⟩, rfl, Nat.le_refl _, rfl⟩
  | finish => exact ⟨⟨{ h.safe with }, h.joined, h.numbered⟩, rfl, Nat.le_refl _, rfl⟩
  | drop => exact ⟨h, rfl, Nat.le_refl _, rfl⟩

end Alone

end CaptureSession

namespace Capture

variable {σ : Type} {p : Profile} {c : Capture σ} {s s' : CaptureSession σ} {capacity : Nat}

theorem checkThread_of_joined (hj : s.joined = true) (next : ProducerPhase) :
    checkThread s next = ⟨s, .returned (.error .writerStopped)⟩ := by
  unfold checkThread CaptureSession.threadFault
  rw [CaptureSession.join_of_joined hj]
  rfl

theorem producerStep_queue {data : ByteArray} {i : Nat} (p : Profile)
    (hroom : (data.extract i (pieceEnd s data i)).size < s.shared.ring.sizeToWrite)
    (hle : pieceEnd s data i ≤ data.size) :
    producerStep p ⟨s, .queue data i⟩ =
      ⟨s.accept (data.extract i (pieceEnd s data i)), .findRoom data (pieceEnd s data i)⟩ := by
  have hsize : (data.extract i (pieceEnd s data i)).size = pieceEnd s data i - i := by
    rw [ByteArray.size_extract, Nat.min_eq_left hle]
  have hpush := Ring.push_of_room hroom p
  unfold producerStep CaptureSession.accept
  dsimp only
  rw [hpush, hsize]

theorem pieceEnd_alone (h : s.Alone capacity) (data : ByteArray) (i : Nat) :
    pieceEnd s data i = i + min (data.size - i) (capacity - 1) := by
  rw [pieceEnd, h.pieceSize_eq]

variable [Sink σ]

section

variable {data : ByteArray} {i : Nat}

theorem run_accept (p : Profile) (hi : i < data.size) (hle : pieceEnd s data i ≤ data.size)
    (hroom : pieceEnd s data i - i < s.shared.ring.sizeToWrite) :
    run p ⟨s, .findRoom data i⟩ [.producer, .producer] =
      ⟨s.accept (data.extract i (pieceEnd s data i)), .findRoom data (pieceEnd s data i)⟩ := by
  have hlook : producerStep p ⟨s, .findRoom data i⟩ = ⟨s, .queue data i⟩ :=
    (if_neg (Nat.not_le.mpr hi)).trans (if_neg (Nat.not_le.mpr hroom))
  change producerStep p (producerStep p ⟨s, .findRoom data i⟩) = _
  rw [hlook, producerStep_queue p (by rwa [ByteArray.size_extract, Nat.min_eq_left hle]) hle]

theorem run_refuse (p : Profile) (hj : s.joined = true) (hi : i < data.size)
    (hfull : s.shared.ring.sizeToWrite ≤ pieceEnd s data i - i) :
    run p ⟨s, .findRoom data i⟩ [.producer, .producer] =
      ⟨s, .returned (.error .writerStopped)⟩ := by
  have hlook : producerStep p ⟨s, .findRoom data i⟩ = ⟨s, .stalled data i⟩ :=
    (if_neg (Nat.not_le.mpr hi)).trans (if_pos hfull)
  change producerStep p (producerStep p ⟨s, .findRoom data i⟩) = _
  rw [hlook]
  exact checkThread_of_joined hj _

theorem run_done (p : Profile) (hend : data.size ≤ i) :
    run p ⟨s, .findRoom data i⟩ [.producer, .producer] = ⟨s, .returned (.ok none)⟩ := by
  have hlook : producerStep p ⟨s, .findRoom data i⟩ = ⟨s, .returned (.ok none)⟩ := if_pos hend
  change producerStep p (producerStep p ⟨s, .findRoom data i⟩) = _
  rw [hlook]
  rfl

end

theorem run_write_alone (h : s.Alone capacity) (p : Profile) (data : ByteArray) :
    run p (start s (.write data)) ([.producer, .producer] ++ [.producer, .producer]) =
      ⟨(s.writeAlone data).2, .returned (s.writeAlone data).1⟩ := by
  change run p ⟨s, .findRoom data 0⟩ _ = _
  have hroom := h.sizeToWrite_eq
  have hlt := h.size_lt
  have hge : 2 ≤ capacity := h.safe.capacity_ge
  have hpiece := pieceEnd_alone h data 0
  rw [run_append]
  unfold CaptureSession.writeAlone
  split
  · next hfits =>
    rcases Nat.eq_zero_or_pos data.size with hnone | hsome
    · have hsame : s.accept data = s := by
        rw [ByteArray.size_eq_zero_iff.mp hnone, CaptureSession.accept, h.sound.put_empty]
        rfl
      rw [run_done p (Nat.le_of_eq hnone), hsame]
      rfl
    · have hall : pieceEnd s data 0 = data.size := by omega
      rw [run_accept p hsome (Nat.le_of_eq hall) (by omega), hall, ByteArray.extract_zero_size,
        run_done p (Nat.le_refl _)]
  · next hfull =>
    have hsome : 0 < data.size := by omega
    split
    · next hempty =>
      -- the first piece leaves one byte free, which is too little for any other
      have hwhole := h.isEmpty_iff.mp hempty
      have hfirst : pieceEnd s data 0 = capacity - 1 := by omega
      have htook := h.took_accept data (n := capacity - 1) (by omega) (by omega)
      have haccount := htook.account h
      have hqueued := htook.queued_eq
      have hnext := pieceEnd_alone htook.alone data (capacity - 1)
      rw [run_accept p hsome (by omega) (by omega), hfirst,
        run_refuse p htook.alone.joined (by omega) (by omega), h.pieceSize_eq]
    · next hsomething =>
      have hshort : s.shared.ring.sizeToWrite ≠ capacity :=
        fun hall => hsomething (h.isEmpty_iff.mpr hall)
      rw [run_refuse p h.joined hsome (by omega)]
      rfl

theorem run_flush_alone (h : s.Alone capacity) (p : Profile) :
    run p (start s .flush) ([.producer, .producer] ++ [.producer, .producer]) =
      ⟨s.requestFlush, .returned (.error .writerStopped)⟩ := by
  let ticket := s.shared.flushRequested + 1
  have hask : run p (start s .flush) [.producer] = ⟨s.requestFlush, .awaitFlush ticket⟩ := rfl
  have hopen : producerStep p ⟨s.requestFlush, .awaitFlush ticket⟩ =
      ⟨s.requestFlush, .waiting ticket⟩ := if_pos (Nat.lt_succ_of_le h.numbered)
  have hj : s.requestFlush.joined = true := h.joined
  have hfault : producerStep p ⟨s.requestFlush, .waiting ticket⟩ =
      ⟨s.requestFlush, .returned (.error .writerStopped)⟩ := checkThread_of_joined hj _
  change run p (run p (start s .flush) [.producer]) [.producer, .producer, .producer] = _
  rw [hask]
  change producerStep p (producerStep p (producerStep p ⟨s.requestFlush, .awaitFlush ticket⟩)) = _
  rw [hopen, hfault]
  rfl

/-- What a call comes to without the thread takes the producer at most four steps. -/
theorem run_call_alone (h : s.Alone capacity) (p : Profile) (call : CaptureCall) :
    run p (start s call) ([.producer, .producer] ++ [.producer, .producer]) =
      ⟨(s.callAlone call).2, .returned (s.callAlone call).1⟩ := by
  cases call with
  | write data => exact run_write_alone h p data
  | flush => exact run_flush_alone h p
  | finish =>
    obtain ⟨shared, thread, joined, queued, log⟩ := s
    obtain rfl : joined = true := h.joined
    rfl
  | drop =>
    obtain ⟨shared, thread, joined, queued, log⟩ := s
    obtain rfl : joined = true := h.joined
    rfl

theorem run_of_returned (p : Profile) (hret : c.reply?.isSome) (n : Nat) :
    c.run p (List.replicate n .producer) = c := by
  obtain ⟨s, phase⟩ := c
  cases phase with
  | returned reply =>
    induction n with
    | zero => rfl
    | succ n ih => exact ih
  | _ => cases hret

theorem Safe.run_eq (hs : Safe capacity c) {r : Outcome TraceError CaptureStats}
    (hr : c.session.thread.phase = .ended r) (p : Profile) (schedule : List CaptureParty) :
    c.run p schedule = c.run p (List.replicate (schedule.count .producer) .producer) := by
  induction schedule generalizing c with
  | nil => rfl
  | cons party schedule ih =>
    cases party with
    | producer =>
      have hm := hs.producerMoves p
      rw [List.count_cons_self]
      exact ih (hs.producerMove hm) ((congrArg WriterThread.phase (thread_of_moves hm)).trans hr)
    | writer =>
      have hstep : c.step p .writer = c := writerStep_of_ended hr
      rw [List.count_cons_of_ne (by decide)]
      change (c.step p .writer).run p schedule = _
      rw [hstep]
      exact ih hs hr

variable {call : CaptureCall} {schedule : List CaptureParty}

theorem run_alone (h : s.Alone capacity) (p : Profile) (call : CaptureCall)
    (hlong : 4 ≤ schedule.count .producer) :
    run p (start s call) schedule = ⟨(s.callAlone call).2, .returned (s.callAlone call).1⟩ := by
  obtain ⟨r, hr⟩ := h.ended
  obtain ⟨n, hn⟩ := Nat.le.dest hlong
  have hsafe : Safe capacity (start s call) := h.safe.call call
  have hended : (start s call).session.thread.phase = .ended r := by rwa [session_start]
  have hfour : List.replicate 4 CaptureParty.producer =
      [.producer, .producer] ++ [.producer, .producer] := rfl
  rw [hsafe.run_eq hended, ← hn, List.replicate_add, run_append, hfour, run_call_alone h p call]
  exact run_of_returned p rfl n

theorem answer_alone (h : s.Alone capacity) {reply : CaptureReply}
    (hreply : ((start s call).run p schedule).reply? = some reply) :
    (start s call).run p schedule = ⟨(s.callAlone call).2, .returned (s.callAlone call).1⟩ := by
  have hret : ((start s call).run p schedule).reply?.isSome := by rw [hreply]; rfl
  have hlong : 4 ≤ (schedule ++ List.replicate 4 CaptureParty.producer).count .producer := by
    rw [List.count_append, List.count_replicate_self]
    exact Nat.le_add_left _ _
  rw [← run_alone h p call hlong, run_append, run_of_returned p hret]

variable {w : Writer σ} {sink : σ} {s₁ s₂ : CaptureSession σ}
  {answers before later : List (CaptureCall × CaptureReply)}

theorem Answers.alone (ha : Answers p s₁ answers s₂) (h : s₁.Alone capacity) :
    s₂.Alone capacity ∧ s₂.thread = s₁.thread ∧ s₁.queued ≤ s₂.queued ∧
      s₂.queued + s₂.shared.ring.sizeToWrite = s₁.queued + s₁.shared.ring.sizeToWrite := by
  induction ha with
  | nil => exact ⟨h, rfl, Nat.le_refl _, rfl⟩
  | call ha schedule hreply ih =>
    obtain ⟨halone, hthread, hqueued, haccount⟩ := ih
    obtain ⟨halone', hthread', hqueued', haccount'⟩ := halone.callAlone _
    rw [answer_alone halone hreply]
    exact ⟨halone', hthread'.trans hthread, Nat.le_trans hqueued hqueued',
      haccount'.trans haccount⟩

theorem Answers.alone_of_error (hstart : CaptureSession.start w capacity = (.ok s, sink))
    (ha : Answers p s answers s') (hopen : ∀ a ∈ answers, a.1.closes = false)
    (herror : ∃ a ∈ answers, ∃ e, a.2 = .error e) : s'.Alone capacity := by
  obtain ⟨c, h, hc, rfl, -⟩ := ha.reaches hopen
  obtain ⟨-, hall⟩ | ⟨hj, -⟩ := ha.told hstart hopen
  · obtain ⟨a, hmem, e, he⟩ := herror
    cases he.symm.trans (hall a hmem)
  · exact ⟨(hc.safe hstart).goto trivial nofun, hj, (hc.numbered hstart).1⟩

end Capture

open Capture

/-- Once a call has met the end of the thread, the ring only fills up: a write of fewer bytes than
are free is accepted, although nobody will take the bytes, and any other fails. So no more than the
capacity of the ring, less a byte, is accepted in all. -/
theorem writes_fill_ring_behind_failure {σ : Type} [Sink σ] {p : Profile} {w : Writer σ}
    {capacity : Nat} {s s₁ s₂ : CaptureSession σ} {sink : σ}
    {before later : List (CaptureCall × CaptureReply)}
    (hstart : CaptureSession.start w capacity = (.ok s, sink)) (hbefore : Answers p s before s₁)
    (hopen : ∀ a ∈ before, a.1.closes = false) (hknown : ∃ a ∈ before, ∃ e, a.2 = .error e)
    (hlater : Answers p s₁ later s₂) :
    (∃ r, s₁.thread.phase = .ended r) ∧ s₂.thread = s₁.thread ∧
    s₁.queued ≤ s₂.queued ∧ s₂.queued ≤ s₁.queued + (capacity - 1) ∧
    s₂.queued + s₂.shared.ring.sizeToWrite = s₁.queued + s₁.shared.ring.sizeToWrite ∧
    ∀ data : ByteArray, ∃ reply s₃ n,
      (∀ schedule : List CaptureParty, 4 ≤ schedule.count .producer →
        (start s₂ (.write data)).run p schedule = ⟨s₃, .returned reply⟩) ∧
      s₃.queued = s₂.queued + n ∧
      s₃.shared.ring.contents = s₂.shared.ring.contents ++ data.extract 0 n ∧
      (data.size < s₂.shared.ring.sizeToWrite → reply = .ok none ∧ n = data.size) ∧
      (s₂.shared.ring.sizeToWrite ≤ data.size → reply = .error .writerStopped ∧
        n = if s₂.shared.ring.sizeToWrite = capacity then capacity - 1 else 0) := by
  have halone := hbefore.alone_of_error hstart hopen hknown
  obtain ⟨halone₂, hthread, hqueued, haccount⟩ := hlater.alone halone
  have hroom := halone.sizeToWrite_eq
  have hroom₂ := halone₂.sizeToWrite_eq
  have hlt₂ := halone₂.size_lt
  refine ⟨halone.ended, hthread, hqueued, by omega, haccount, fun data => ?_⟩
  obtain ⟨n, htook, hanswer⟩ := halone₂.writeAlone data
  exact ⟨_, _, n, fun schedule hlong => run_alone halone₂ p (.write data) hlong, htook.queued_eq,
    htook.contents_eq, hanswer⟩

def unflushedWriter : Writer MemorySink :=
  { refusingWriter with inner := ⟨magic, 0, false, ⟨false, none, none, none, none, some 1⟩⟩ }

def unflushedSession (storage : ByteArray) : CaptureSession MemorySink :=
  ⟨⟨⟨storage, 0, 0⟩, false, 0, 0⟩, .start unflushedWriter, false, 0, #[]⟩

def flushRefused : CaptureReply := .error (.file (.io (.other "flush refused")))

def failedFlush (storage : ByteArray) : Capture MemorySink :=
  (start (unflushedSession storage) .flush).run .checked
    ([.producer, .producer] ++ List.replicate 6 .writer ++ [.producer, .producer])

def writeBehind (storage : ByteArray) : Capture MemorySink :=
  (start (failedFlush storage).session (.write ⟨#[2]⟩)).run .checked
    (List.replicate 4 .producer)

/-- Behind the failed flush a ring of four bytes takes one byte, and then a write of three bytes
fails and takes none of them. -/
theorem writes_fill_ring_of_four_behind_failure :
    ∃ s s₁ s₂ : CaptureSession MemorySink,
      CaptureSession.start unflushedWriter 4 = (.ok s, unflushedWriter.inner) ∧
      Answers .checked s [(.flush, flushRefused)] s₁ ∧
      Answers .checked s₁ [(.write ⟨#[2]⟩, .ok none)] s₂ ∧ s₂.queued ≤ s₁.queued + 3 ∧
      ∃ s₃, s₃.queued = s₂.queued ∧
        ∀ schedule : List CaptureParty, 4 ≤ schedule.count .producer →
          (start s₂ (.write ⟨#[3, 4, 5]⟩)).run .checked schedule =
            ⟨s₃, .returned (.error .writerStopped)⟩ := by
  have hstart : CaptureSession.start unflushedWriter 4 =
      (.ok (unflushedSession ⟨#[0, 0, 0, 0]⟩), unflushedWriter.inner) :=
    CaptureSession.start_eq unflushedWriter (by decide) (by decide)
  have hflush : Answers .checked (unflushedSession ⟨#[0, 0, 0, 0]⟩) [(.flush, flushRefused)]
      (failedFlush ⟨#[0, 0, 0, 0]⟩).session := .call .nil _ (by decide +kernel)
  have hwrite : Answers .checked (failedFlush ⟨#[0, 0, 0, 0]⟩).session [(.write ⟨#[2]⟩, .ok none)]
      (writeBehind ⟨#[0, 0, 0, 0]⟩).session := .call .nil _ (by decide +kernel)
  obtain ⟨-, -, -, hbound, -, hfills⟩ := writes_fill_ring_behind_failure hstart hflush
    (by decide) ⟨_, List.mem_singleton_self _, _, rfl⟩ hwrite
  obtain ⟨reply, s₃, n, hrun, hqueued, -, -, hfull⟩ := hfills ⟨#[3, 4, 5]⟩
  have hroom : (writeBehind ⟨#[0, 0, 0, 0]⟩).session.shared.ring.sizeToWrite = 3 := by
    decide +kernel
  rw [hroom] at hfull
  obtain ⟨rfl, rfl⟩ := hfull (by decide)
  exact ⟨_, _, _, hstart, hflush, hwrite, hbound, s₃, hqueued, hrun⟩

theorem write_accepted_behind_failure :
    Writer.start (MemorySink.new ⟨false, none, none, none, none, some 1⟩) 4 (.lz4 .checked) =
      (.ok unflushedWriter, unflushedWriter.inner) ∧
    ∃ s s₁ s₂ : CaptureSession MemorySink,
      CaptureSession.start unflushedWriter 16 = (.ok s, unflushedWriter.inner) ∧
      Answers .checked s [(.flush, flushRefused)] s₁ ∧
      Answers .checked s₁ [(.write ⟨#[2]⟩, .ok none)] s₂ ∧ s₁.queued = 0 ∧ s₂.queued = 1 := by
  let storage : ByteArray := ⟨Array.replicate 16 0⟩
  have hstart : CaptureSession.start unflushedWriter 16 =
      (.ok (unflushedSession storage), unflushedWriter.inner) :=
    CaptureSession.start_eq unflushedWriter (by decide) (by decide)
  have hflush : Answers .checked (unflushedSession storage) [(.flush, flushRefused)]
      (failedFlush storage).session := .call .nil _ (by decide +kernel)
  have hwrite : Answers .checked (failedFlush storage).session [(.write ⟨#[2]⟩, .ok none)]
      (writeBehind storage).session := .call .nil _ (by decide +kernel)
  have hmagic : Sink.writeAll (MemorySink.new ⟨false, none, none, none, none, some 1⟩) magic =
      (.ok (), unflushedWriter.inner) := Sink.writeAll_of_writeFor (k := 2) rfl
  have hfile := Writer.start_of_write unflushedWriter.codec unflushedWriter.chunkSize
    (by decide) hmagic
  exact ⟨hfile, _, _, _, hstart, hflush, hwrite, by decide +kernel, by decide +kernel⟩

end TraceCapture
