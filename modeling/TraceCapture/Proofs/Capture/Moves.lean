import TraceCapture.Proofs.Capture.RingSafety

set_option autoImplicit false

/-!
# The moves of the two threads

What a step can do, with all that it relies on, as one case for each outcome. No operation on the
ring fails in any of them, also after the thread has failed.
-/

namespace TraceCapture

def ProducerPhase.Waits : ProducerPhase → Prop
  | stalled .. | waiting .. => True
  | _ => False

/-- The steps of the producer, with the bytes that they queue. -/
inductive ProducerMoves {σ : Type} (s : CaptureSession σ) :
    ProducerPhase → Capture σ → ByteArray → Prop where
  | done {data : ByteArray} {i : Nat} (hend : data.size ≤ i) :
      ProducerMoves s (.findRoom data i) ⟨s, .returned (.ok none)⟩ .empty
  | full {data : ByteArray} {i : Nat} (hi : i < data.size)
      (hfull : s.shared.ring.sizeToWrite ≤ Capture.pieceEnd s data i - i) :
      ProducerMoves s (.findRoom data i) ⟨s, .stalled data i⟩ .empty
  | room {data : ByteArray} {i : Nat} (hi : i < data.size)
      (hroom : Capture.pieceEnd s data i - i < s.shared.ring.sizeToWrite) :
      ProducerMoves s (.findRoom data i) ⟨s, .queue data i⟩ .empty
  | retry {data : ByteArray} {i : Nat} (hlive : s.thread.result? = none) :
      ProducerMoves s (.stalled data i) ⟨s, .findRoom data i⟩ .empty
  | queue {data : ByteArray} {i j : Nat} {ring : Ring} (hi : i < j) (hj : j ≤ data.size)
      (hring : ring.contents = s.shared.ring.contents ++ data.extract i j) (hsound : ring.Sound)
      (hcap : ring.capacity = s.shared.ring.capacity) :
      ProducerMoves s (.queue data i)
        ⟨{ s with shared := { s.shared with ring }, queued := s.queued + (j - i) },
          .findRoom data j⟩ (data.extract i j)
  | requestFlush :
      ProducerMoves s .requestFlush
        ⟨{ s with shared := { s.shared with flushRequested := s.shared.flushRequested + 1 } },
          .awaitFlush (s.shared.flushRequested + 1)⟩ .empty
  | unserved {ticket : Nat} (hlt : s.shared.flushed < ticket) :
      ProducerMoves s (.awaitFlush ticket) ⟨s, .waiting ticket⟩ .empty
  | served {ticket : Nat} (hle : ticket ≤ s.shared.flushed) :
      ProducerMoves s (.awaitFlush ticket) ⟨s, .returned (.ok none)⟩ .empty
  | retryFlush {ticket : Nat} (hlive : s.thread.result? = none) :
      ProducerMoves s (.waiting ticket) ⟨s, .awaitFlush ticket⟩ .empty
  | fault {phase : ProducerPhase} {e : CaptureError} (hwaits : phase.Waits)
      (hended : ∃ r, s.thread.phase = .ended r) :
      ProducerMoves s phase ⟨{ s with joined := true }, .returned (.error e)⟩ .empty
  | requestStop {quiet : Bool} :
      ProducerMoves s (.requestStop quiet)
        ⟨{ s with shared := { s.shared with stop := true } }, .join quiet⟩ .empty
  | wait {quiet : Bool} : ProducerMoves s (.join quiet) ⟨s, .join quiet⟩ .empty
  | join {quiet : Bool} {log : Array CaptureEvent} {reply : CaptureReply}
      (hended : ∃ r, s.thread.phase = .ended r)
      (hreply : ∀ stats, reply = .ok (some stats) →
        quiet = false ∧ s.thread.phase = .ended (.ok stats)) :
      ProducerMoves s (.join quiet) ⟨{ s with joined := true, log }, .returned reply⟩ .empty
  | rest {reply : CaptureReply} : ProducerMoves s (.returned reply) ⟨s, .returned reply⟩ .empty

/-- The steps of the writer thread, with the calls on the trace writer that succeed in them. -/
inductive WriterMoves {σ : Type} [Sink σ] (sh : CaptureShared) (w : Writer σ) (n : Nat) :
    WriterPhase → CaptureShared → WriterThread σ → List WriterCall → Prop where
  | loadStop : WriterMoves sh w n .loadStop sh ⟨.loadRequest sh.stop, w, n⟩ []
  | loadRequest {stop : Bool} :
      WriterMoves sh w n (.loadRequest stop) sh ⟨.lookAtRing stop sh.flushRequested, w, n⟩ []
  | bytesSeen {stop : Bool} {requested : Nat} :
      WriterMoves sh w n (.lookAtRing stop requested) sh ⟨.copyOut sh.ring.sizeToRead, w, n⟩ []
  | nothingSeen {stop : Bool} {requested : Nat} (hempty : sh.ring.contents = .empty) :
      WriterMoves sh w n (.lookAtRing stop requested) sh ⟨.serveFlush stop requested, w, n⟩ []
  | copyOut {k : Nat} {batch : ByteArray} (hfits : (WriterPhase.advance batch).Fits sh.ring) :
      WriterMoves sh w n (.copyOut k) sh ⟨.advance batch, w, n⟩ []
  | advance {batch : ByteArray} {ring : Ring} (hring : sh.ring.contents = batch ++ ring.contents)
      (hsound : ring.Sound) (hcap : ring.capacity = sh.ring.capacity) :
      WriterMoves sh w n (.advance batch) { sh with ring } ⟨.append batch, w, n⟩ []
  | append {batch : ByteArray} {v : Writer σ} (hok : w.append batch = (.ok (), v)) :
      WriterMoves sh w n (.append batch) sh ⟨.loadStop, v, n + batch.size⟩ [.append batch]
  | flush {stop : Bool} {requested : Nat} {v : Writer σ} (hlt : sh.flushed < requested)
      (hok : w.flush = (.ok (), v)) :
      WriterMoves sh w n (.serveFlush stop requested) sh ⟨.acknowledge stop requested, v, n⟩
        [.flush]
  | skip {stop : Bool} {requested : Nat} (hle : requested ≤ sh.flushed) :
      WriterMoves sh w n (.serveFlush stop requested) sh ⟨.pause stop, w, n⟩ []
  | acknowledge {stop : Bool} {requested : Nat} :
      WriterMoves sh w n (.acknowledge stop requested) { sh with flushed := requested }
        ⟨.pause stop, w, n⟩ []
  | again : WriterMoves sh w n (.pause false) sh ⟨.loadStop, w, n⟩ []
  | stop : WriterMoves sh w n (.pause true) sh ⟨.flushLast, w, n⟩ []
  | flushLast {v : Writer σ} (hok : w.flush = (.ok (), v)) :
      WriterMoves sh w n .flushLast sh ⟨.close v.chunksWritten, v, n⟩ [.flush]
  | close {chunks : Nat} {v : Writer σ} (hok : w.flush = (.ok (), v)) :
      WriterMoves sh w n (.close chunks) sh ⟨.ended (.ok ⟨n, chunks⟩), v, n⟩ [.flush]
  | fail {phase : WriterPhase} {t : WriterThread σ} (hrun : ∀ r, phase ≠ .ended r)
      (hfailed : t.Failed) : WriterMoves sh w n phase sh t []
  | rest {r : Outcome TraceError CaptureStats} :
      WriterMoves sh w n (.ended r) sh ⟨.ended r, w, n⟩ []

namespace Capture

variable {σ : Type} {capacity : Nat} {c : Capture σ}

theorem checkThread_moves (h : Safe capacity c) {phase next : ProducerPhase}
    (hwaits : phase.Waits)
    (hlive : c.session.thread.result? = none →
      ProducerMoves c.session phase ⟨c.session, next⟩ .empty) :
    ProducerMoves c.session phase (checkThread c.session next) .empty := by
  obtain ⟨-, hr, hc⟩ | ⟨e, ⟨hc, hj⟩ | ⟨hc, hr⟩⟩ := checkThread_cases c.session next
  · rw [hc]
    exact hlive hr
  · have hmove : ProducerMoves c.session phase
        ⟨{ c.session with joined := true }, .returned (.error e)⟩ .empty :=
      .fault hwaits (h.joined_ended hj)
    rw [hc]
    rw [← hj] at hmove
    exact hmove
  · rw [hc]
    exact .fault hwaits hr

theorem Safe.producerMoves (h : Safe capacity c) (p : Profile) :
    ProducerMoves c.session c.producer (c.producerStep p) (c.queuedNext p) := by
  obtain ⟨s, phase⟩ := c
  cases phase with
  | findRoom data i =>
    unfold Capture.producerStep
    dsimp only
    split
    · next hend => exact .done hend
    · next hi =>
      split
      · next hfull => exact .full (Nat.lt_of_not_le hi) hfull
      · next hroom => exact .room (Nat.lt_of_not_le hi) (Nat.lt_of_not_le hroom)
  | stalled data i => exact checkThread_moves h trivial .retry
  | queue data i =>
    obtain ⟨hroom, hpush⟩ := h.push_ok rfl p
    obtain ⟨hsound, hcontents, hcap⟩ := h.sound.put hroom
    obtain ⟨hi, hj⟩ := pieceEnd_bounds h h.producer.1
    unfold Capture.producerStep queuedNext
    dsimp only at hpush hcontents ⊢
    rw [hpush]
    exact .queue hi hj hcontents hsound hcap
  | requestFlush => exact .requestFlush
  | awaitFlush ticket =>
    unfold Capture.producerStep
    dsimp only
    split
    · next hlt => exact .unserved hlt
    · next hle => exact .served (Nat.le_of_not_lt hle)
  | waiting ticket => exact checkThread_moves h trivial .retryFlush
  | requestStop quiet => exact .requestStop
  | join quiet =>
    unfold Capture.producerStep
    dsimp only
    obtain ⟨hj, hjoin⟩ | ⟨-, -, hjoin⟩ | ⟨-, r, answer, hr, hjoin, hanswer⟩ := s.join_cases
    · obtain ⟨log, reply, hclose, hreply⟩ := close_eq s quiet (.error .writerStopped)
      have hmove : ProducerMoves s (.join quiet)
          ⟨{ s with joined := true, log }, .returned reply⟩ .empty :=
        .join (h.joined_ended hj) fun stats hs => nomatch (hreply stats hs).2
      rw [hjoin]
      dsimp only
      rw [hclose]
      rw [← hj] at hmove
      exact hmove
    · rw [hjoin]
      exact .wait
    · obtain ⟨log, reply, hclose, hreply⟩ := close_eq { s with joined := true } quiet answer
      rw [hjoin]
      dsimp only
      rw [hclose]
      refine .join ⟨r, hr⟩ fun stats hs => ⟨(hreply stats hs).1, ?_⟩
      rw [hr, hanswer stats (hreply stats hs).2]
  | returned reply => exact .rest

theorem session_start (s : CaptureSession σ) (call : CaptureCall) : (start s call).session = s := by
  cases call with
  | write | flush | finish => rfl
  | drop =>
    change (if s.joined then _ else _ : Capture σ).session = s
    split <;> rfl

theorem thread_of_moves {s : CaptureSession σ} {phase : ProducerPhase} {c' : Capture σ}
    {queued : ByteArray} (hm : ProducerMoves s phase c' queued) : c'.session.thread = s.thread := by
  cases hm <;> rfl

theorem Safe.goto (h : Safe capacity c) {phase : ProducerPhase} (hfits : phase.Fits c.session)
    (hret : ∀ stats, phase ≠ .returned (.ok (some stats))) :
    Safe capacity ⟨c.session, phase⟩ :=
  { h with
    producer := hfits
    finished_ended := fun stats hs => absurd hs (hret stats) }

theorem Safe.call (h : Safe capacity c) (call : CaptureCall) :
    Safe capacity (start c.session call) := by
  cases call with
  | write data => exact h.goto trivial nofun
  | flush => exact h.goto trivial nofun
  | finish => exact h.goto trivial nofun
  | drop =>
    change Safe capacity (if c.session.joined then _ else _)
    split
    · exact h.goto trivial nofun
    · exact h.goto trivial nofun

theorem Safe.producerMove (h : Safe capacity c) {c' : Capture σ} {queued : ByteArray}
    (hm : ProducerMoves c.session c.producer c' queued) : Safe capacity c' := by
  obtain ⟨s, phase⟩ := c
  dsimp only at hm
  cases hm with
  | full hi => exact h.goto hi nofun
  | room hi hroom => exact h.goto ⟨hi, hroom⟩ nofun
  | done | retry | unserved | served | retryFlush | wait => exact h.goto trivial nofun
  | queue hi hj hring hsound hcap =>
    exact { h with
      capacity_eq := hcap.trans h.capacity_eq
      sound := hsound
      producer := trivial
      thread := h.thread.grow h.sound hsound hring
      finished_ended := nofun }
  | requestFlush | requestStop => exact { h with producer := trivial, finished_ended := nofun }
  | fault _ hended =>
    exact { h with producer := trivial, joined_ended := fun _ => hended, finished_ended := nofun }
  | join hended hreply =>
    exact { h with
      producer := trivial
      joined_ended := fun _ => hended
      finished_ended := fun stats hs => by
        cases hs
        exact (hreply stats rfl).2 }
  | rest => exact h

theorem Safe.threadStep (h : Safe capacity c) (hrun : ∀ r, c.session.thread.phase ≠ .ended r)
    {shared : CaptureShared} {thread : WriterThread σ} (hcap : shared.ring.capacity = capacity)
    (hsound : shared.ring.Sound)
    (hroom : c.session.shared.ring.sizeToWrite ≤ shared.ring.sizeToWrite)
    (hthread : thread.phase.Fits shared.ring) :
    Safe capacity ⟨{ c.session with shared, thread }, c.producer⟩ where
  capacity_eq := hcap
  capacity_ge := h.capacity_ge
  sound := hsound
  producer := h.producer.makeRoom (hcap.trans h.capacity_eq.symm) hroom
  thread := hthread
  joined_ended hj := by
    obtain ⟨r, hr⟩ := h.joined_ended hj
    exact absurd hr (hrun r)
  finished_ended stats hs := absurd (h.finished_ended stats hs) (hrun _)

theorem Safe.look (h : Safe capacity c) (hrun : ∀ r, c.session.thread.phase ≠ .ended r)
    {shared : CaptureShared} {thread : WriterThread σ} (hring : shared.ring = c.session.shared.ring)
    (hthread : thread.phase.Fits c.session.shared.ring) :
    Safe capacity ⟨{ c.session with shared, thread }, c.producer⟩ := by
  refine h.threadStep hrun ?_ ?_ ?_ ?_
  · rw [hring]
    exact h.capacity_eq
  · rw [hring]
    exact h.sound
  · exact Nat.le_of_eq (congrArg Ring.sizeToWrite hring.symm)
  · rwa [hring]

variable [Sink σ]

theorem writtenNext_eq {call : WriterCall} {v : Writer σ} (hcall : c.nextCall? = some call)
    (hok : c.session.thread.writer.perform call = (.ok (), v)) : c.writtenNext = [call] := by
  unfold writtenNext
  rw [hcall]
  dsimp only
  rw [hok]
  rfl

theorem writtenNext_eq_nil {call : WriterCall} (hcall : c.nextCall? = some call)
    (hbad : ∀ v, c.session.thread.writer.perform call ≠ (.ok (), v)) : c.writtenNext = [] := by
  unfold writtenNext
  rw [hcall]
  dsimp only
  generalize c.session.thread.writer.perform call = r at hbad ⊢
  obtain ⟨o, v⟩ := r
  cases o with
  | ok => exact absurd rfl (hbad v)
  | error | panicked => rfl

theorem Safe.writerMoves (h : Safe capacity c) :
    WriterMoves c.session.shared c.session.thread.writer c.session.thread.bytes
      c.session.thread.phase c.writerStep.session.shared c.writerStep.session.thread
      c.writtenNext := by
  obtain ⟨⟨shared, ⟨phase, writer, bytes⟩, joined, queued, log⟩, producer⟩ := c
  -- a call that succeeds goes into the history, one that does not ends the thread
  have hnext : ∀ (call : WriterCall) {v : Writer σ},
      nextCall? ⟨⟨shared, ⟨phase, writer, bytes⟩, joined, queued, log⟩, producer⟩ = some call →
      writer.perform call = (.ok (), v) →
      writtenNext ⟨⟨shared, ⟨phase, writer, bytes⟩, joined, queued, log⟩, producer⟩ = [call] :=
    fun _ _ => writtenNext_eq
  have hnone : ∀ call : WriterCall,
      nextCall? ⟨⟨shared, ⟨phase, writer, bytes⟩, joined, queued, log⟩, producer⟩ = some call →
      (∀ v, writer.perform call ≠ (.ok (), v)) →
      writtenNext ⟨⟨shared, ⟨phase, writer, bytes⟩, joined, queued, log⟩, producer⟩ = [] :=
    fun _ => writtenNext_eq_nil
  change WriterMoves shared writer bytes phase (WriterThread.step shared ⟨phase, writer, bytes⟩).1
    (WriterThread.step shared ⟨phase, writer, bytes⟩).2 _
  cases phase with
  | loadStop => exact .loadStop
  | loadRequest stop => exact .loadRequest
  | lookAtRing stop requested =>
    unfold WriterThread.step WriterThread.goto
    dsimp only
    split
    · exact .bytesSeen
    · next hempty =>
      have hsize : shared.ring.sizeToRead = shared.ring.contents.size :=
        Ring.Queues.sizeToRead_eq h.sound
      exact .nothingSeen (ByteArray.size_eq_zero_iff.mp (by omega))
  | copyOut n =>
    have hn : n ≤ shared.ring.contents.size :=
      Nat.le_trans h.thread (Nat.le_of_eq (Ring.Queues.sizeToRead_eq h.sound))
    have hsize : (shared.ring.contents.extract 0 n).size = n := by
      rw [ByteArray.size_extract, Nat.min_eq_left hn, Nat.sub_zero]
    rw [WriterThread.step_copyOut h.sound h.thread]
    refine .copyOut ⟨?_, ?_⟩
    · rw [hsize]
      exact h.thread
    · rw [hsize]
  | advance batch =>
    obtain ⟨ring, hstep, hsound, hcontents, hcap⟩ :=
      WriterThread.step_advance h.sound h.thread.1 h.thread.2 writer bytes
    rw [hstep]
    exact .advance hcontents hsound hcap
  | append batch =>
    by_cases hok : ∃ v, writer.append batch = (.ok (), v)
    · obtain ⟨v, hv⟩ := hok
      rw [WriterThread.step_append hv, hnext (.append batch) rfl hv]
      exact .append hv
    · rw [not_exists] at hok
      rw [hnone (.append batch) rfl hok]
      exact .fail nofun (WriterThread.failed_of_after _ hok _)
  | serveFlush stop requested =>
    by_cases hlt : shared.flushed < requested
    · by_cases hok : ∃ v, writer.flush = (.ok (), v)
      · obtain ⟨v, hv⟩ := hok
        rw [WriterThread.step_serveFlush hlt hv, hnext .flush (if_pos hlt) hv]
        exact .flush hlt hv
      · rw [not_exists] at hok
        rw [hnone .flush (if_pos hlt) hok]
        have hstep : WriterThread.step shared ⟨.serveFlush stop requested, writer, bytes⟩ =
            (shared, WriterThread.after ⟨.serveFlush stop requested, writer, bytes⟩ writer.flush
              (·.goto (.acknowledge stop requested))) := if_pos hlt
        rw [hstep]
        exact .fail nofun (WriterThread.failed_of_after _ hok _)
    · have hstep : WriterThread.step shared ⟨.serveFlush stop requested, writer, bytes⟩ =
          (shared, ⟨.pause stop, writer, bytes⟩) := if_neg hlt
      have hcall : nextCall? ⟨⟨shared, ⟨.serveFlush stop requested, writer, bytes⟩, joined, queued,
          log⟩, producer⟩ = none := if_neg hlt
      unfold writtenNext
      rw [hstep, hcall]
      exact .skip (Nat.le_of_not_lt hlt)
  | acknowledge stop requested => exact .acknowledge
  | pause stop =>
    cases stop
    · exact .again
    · exact .stop
  | flushLast =>
    by_cases hok : ∃ v, writer.flush = (.ok (), v)
    · obtain ⟨v, hv⟩ := hok
      rw [WriterThread.step_flushLast hv, hnext .flush rfl hv]
      exact .flushLast hv
    · rw [not_exists] at hok
      rw [hnone .flush rfl hok]
      exact .fail nofun (WriterThread.failed_of_after _ hok _)
  | close chunks =>
    by_cases hok : ∃ v, writer.flush = (.ok (), v)
    · obtain ⟨v, hv⟩ := hok
      rw [WriterThread.step_close (Writer.finish_eq_ok.mpr hv), hnext .flush rfl hv]
      exact .close hv
    · rw [not_exists] at hok
      rw [hnone .flush rfl hok]
      refine .fail nofun ⟨writer.finish.1.map fun _ => ⟨bytes, chunks⟩, rfl, fun stats hs => ?_⟩
      cases hfinish : writer.finish with | mk o v
      rw [hfinish] at hs
      cases o with
      | ok => exact hok v (Writer.finish_eq_ok.mp hfinish)
      | error | panicked => cases hs
  | ended r => exact .rest

theorem Safe.writerMove (h : Safe capacity c) {sh : CaptureShared} {t : WriterThread σ}
    {written : List WriterCall}
    (hm : WriterMoves c.session.shared c.session.thread.writer c.session.thread.bytes
      c.session.thread.phase sh t written) :
    Safe capacity ⟨{ c.session with shared := sh, thread := t }, c.producer⟩ := by
  obtain ⟨⟨shared, ⟨phase, writer, bytes⟩, joined, queued, log⟩, producer⟩ := c
  dsimp only at hm
  cases hm with
  | bytesSeen => exact h.look nofun rfl (Nat.le_refl _)
  | copyOut hfits => exact h.look nofun rfl hfits
  | advance hring hsound hcap =>
    rename_i batch ring
    have hroom : shared.ring.sizeToWrite ≤ ring.sizeToWrite := by
      have hold : shared.ring.sizeToWrite = shared.ring.capacity - shared.ring.contents.size :=
        Ring.Queues.sizeToWrite_eq h.sound
      have hnew : ring.sizeToWrite = ring.capacity - ring.contents.size :=
        Ring.Queues.sizeToWrite_eq hsound
      have hsize := congrArg ByteArray.size hring
      rw [ByteArray.size_append] at hsize
      omega
    exact h.threadStep nofun (hcap.trans h.capacity_eq) hsound hroom trivial
  | fail hrun hfailed =>
    obtain ⟨r, hr, -⟩ := hfailed
    refine h.look hrun rfl ?_
    rw [hr]
    trivial
  | rest => exact h
  | _ => exact h.look nofun rfl trivial

theorem Reaches.safe {p : Profile} {w : Writer σ} {s : CaptureSession σ} {sink : σ}
    {h : CaptureHistory} (hstart : CaptureSession.start w capacity = (.ok s, sink))
    (hc : Reaches p s c h) : Safe capacity c := by
  induction hc with
  | idle => exact safe_idle hstart
  | call hc hret hopen call ih => exact ih.call call
  | producer hc ih => exact ih.producerMove (ih.producerMoves p)
  | writer hc ih => exact ih.writerMove ih.writerMoves

/-- What holds at the start and is kept by calls and by moves, so as long as the thread does not
fail. -/
structure Invariant (capacity : Nat) (s : CaptureSession σ)
    (P : Capture σ → CaptureHistory → Prop) : Prop where
  idle : P ⟨s, .returned (.ok none)⟩ .empty
  call : ∀ {c h}, Safe capacity c → P c h → c.reply?.isSome → h.Open → ∀ call,
    P (start c.session call) { h with calls := h.calls ++ [call] }
  producer : ∀ {c h c' queued}, Safe capacity c → P c h →
    ProducerMoves c.session c.producer c' queued → P c' { h with queued := h.queued ++ queued }
  writer : ∀ {c h sh t written}, Safe capacity c → P c h →
    WriterMoves c.session.shared c.session.thread.writer c.session.thread.bytes
      c.session.thread.phase sh t written → ¬ t.Failed →
    P ⟨{ c.session with shared := sh, thread := t }, c.producer⟩
      { h with written := h.written ++ written }

theorem Failed.writerStep (hfailed : c.Failed) : c.writerStep.Failed := by
  obtain ⟨r, hr, hbad⟩ := hfailed
  obtain ⟨⟨shared, ⟨phase, writer, bytes⟩, joined, queued, log⟩, producer⟩ := c
  cases hr
  exact ⟨r, rfl, hbad⟩

theorem Reaches.invariant {p : Profile} {w : Writer σ} {s : CaptureSession σ} {sink : σ}
    {P : Capture σ → CaptureHistory → Prop} {h : CaptureHistory} (hinv : Invariant capacity s P)
    (hstart : CaptureSession.start w capacity = (.ok s, sink)) (hc : Reaches p s c h)
    (hok : ¬ c.Failed) : P c h := by
  induction hc with
  | idle => exact hinv.idle
  | call hc hret hopen call ih =>
    unfold Failed at hok
    rw [session_start] at hok
    exact hinv.call (hc.safe hstart) (ih hok) hret hopen call
  | producer hc ih =>
    have hm := (hc.safe hstart).producerMoves p
    unfold Failed at hok
    rw [thread_of_moves hm] at hok
    exact hinv.producer (hc.safe hstart) (ih hok) hm
  | writer hc ih =>
    have hm := (hc.safe hstart).writerMoves
    exact hinv.writer (hc.safe hstart) (ih fun hfailed => hok hfailed.writerStep) hm hok

end Capture

end TraceCapture
