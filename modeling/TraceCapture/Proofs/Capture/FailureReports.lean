import TraceCapture.Proofs.Capture.Answers

set_option autoImplicit false

namespace TraceCapture

/-- A call on the trace writer ends the thread: with its own error, or with a panic of the call
or of the drop behind it. -/
def Writer.EndedBy {σ : Type} [Sink σ] (v : Writer σ) (call : WriterCall)
    (r : Outcome TraceError CaptureStats) : Prop :=
  match v.perform call with
  | (.ok (), _) => False
  | (.error e, v') => r = .error e ∨ ∃ cause, v'.drop.1 = .panicked cause ∧ r = .panicked cause
  | (.panicked _, _) => ∃ cause, r = .panicked cause

def ProducerPhase.stepsLeft : ProducerPhase → Nat
  | findRoom data i => 2 * (data.size - i) + 2
  | queue data i => 2 * (data.size - i) + 1
  | requestFlush => 3
  | awaitFlush _ | requestStop _ => 2
  | stalled .. | waiting _ | join _ => 1
  | returned _ => 0

namespace Capture

variable {σ : Type} {p : Profile} {c : Capture σ} {s s' : CaptureSession σ} {capacity : Nat}
  {r : Outcome TraceError CaptureStats} {answers : List (CaptureCall × CaptureReply)}

/-- One call reports how the thread ended. All calls before it succeed, and behind it at most writes
do, which may find room in the ring. -/
def ReportedOnce (r : Outcome TraceError CaptureStats)
    (answers : List (CaptureCall × CaptureReply)) : Prop :=
  ∃ before call after, answers = before ++ (call, .error (.ofEnd r)) :: after ∧
    (∀ a ∈ before, a.2 = .ok none) ∧
    ∀ a ∈ after, a.2 = .error .writerStopped ∨ ∃ data, a = (.write data, .ok none)

theorem ReportedOnce.call (h : ReportedOnce r answers) {a : CaptureCall × CaptureReply}
    (ha : a.2 = .error .writerStopped ∨ ∃ data, a = (.write data, .ok none)) :
    ReportedOnce r (answers ++ [a]) := by
  obtain ⟨before, call, after, rfl, hbefore, hafter⟩ := h
  refine ⟨before, call, after ++ [a], ?_, hbefore, ?_⟩
  · rw [List.append_assoc, List.cons_append]
  · intro b hb
    obtain hb | hb := List.mem_append.mp hb
    · exact hafter b hb
    · rwa [List.mem_singleton.mp hb]

theorem ReportedOnce.countP_eq (h : ReportedOnce r answers) (hfailed : ∀ stats, r ≠ .ok stats) :
    answers.countP (fun a => a.2 = .error (.ofEnd r)) = 1 := by
  obtain ⟨before, call, after, rfl, hbefore, hafter⟩ := h
  have hstopped : CaptureError.ofEnd r ≠ .writerStopped := by
    cases r with
    | ok stats => exact absurd rfl (hfailed stats)
    | error | panicked => exact nofun
  have hno : ∀ l : List (CaptureCall × CaptureReply),
      (∀ a ∈ l, a.2 ≠ .error (.ofEnd r)) → l.countP (fun a => a.2 = .error (.ofEnd r)) = 0 := by
    intro l hl
    rw [List.countP_eq_zero]
    intro a ha
    rw [decide_eq_true_eq]
    exact hl a ha
  rw [List.countP_append, List.countP_cons, hno before, hno after]
  · simp
  · intro a ha
    obtain hstop | ⟨data, rfl⟩ := hafter a ha
    · rw [hstop]
      exact fun heq => hstopped (Outcome.error.inj heq).symm
    · exact nofun
  · intro a ha
    rw [hbefore a ha]
    exact nofun

def Told (s : CaptureSession σ) (answers : List (CaptureCall × CaptureReply)) : Prop :=
  s.joined = false ∧ (∀ a ∈ answers, a.2 = .ok none) ∨
    s.joined = true ∧ ∃ r, s.thread.phase = .ended r ∧ ReportedOnce r answers

theorem Told.call (ht : Told s answers) {call : CaptureCall} {reply : CaptureReply}
    (ha : Answer call s' s.joined reply)
    (hkeep : ∀ r, s.thread.phase = .ended r → s'.thread.phase = .ended r)
    (hreply : ∀ stats, reply ≠ .ok (some stats)) : Told s' (answers ++ [(call, reply)]) := by
  unfold Told at ht
  generalize s.joined = found at ht ha
  obtain ⟨rfl, hall⟩ | ⟨rfl, r, hr, honce⟩ := ht
  -- a call that takes notice is the one that reports, and no call after it can be
  · cases ha with
    | passed _ hs =>
      refine .inl ⟨hs, fun a ha => ?_⟩
      obtain ha | ha := List.mem_append.mp ha
      · exact hall a ha
      · rw [List.mem_singleton.mp ha]
    | finished => exact absurd rfl (hreply _)
    | reported hs hr => exact .inr ⟨hs, _, hr, answers, call, [], rfl, hall, nofun⟩
  · cases ha with
    | stopped hs => exact .inr ⟨hs, r, hkeep r hr, honce.call (.inl rfl)⟩
    | unseen hcall hs =>
      subst hcall
      exact .inr ⟨hs, r, hkeep r hr, honce.call (.inr ⟨_, rfl⟩)⟩

theorem producerStep_join (hr : s.thread.phase = .ended r) (p : Profile) (quiet : Bool) :
    ∃ reply, (producerStep p ⟨s, .join quiet⟩).producer = .returned reply := by
  unfold Capture.producerStep
  dsimp only
  obtain ⟨-, hjoin⟩ | ⟨-, hnone, -⟩ | ⟨-, -, answer, -, hjoin, -⟩ := s.join_cases
  · obtain ⟨log, reply, hclose, -⟩ := close_eq s quiet (.error .writerStopped)
    rw [hjoin]
    exact ⟨reply, congrArg producer hclose⟩
  · unfold WriterThread.result? at hnone
    rw [hr] at hnone
    cases hnone
  · obtain ⟨log, reply, hclose, -⟩ := close_eq { s with joined := true } quiet answer
    rw [hjoin]
    exact ⟨reply, congrArg producer hclose⟩

theorem Safe.stepsLeft_producerStep (hs : Safe capacity c)
    (hr : c.session.thread.phase = .ended r) (p : Profile) :
    (c.producerStep p).producer.stepsLeft ≤ c.producer.stepsLeft - 1 := by
  have hm := hs.producerMoves p
  generalize c.queuedNext p = queued at hm
  obtain ⟨s, phase⟩ := c
  dsimp only at hm hr
  have hlive : s.thread.result? ≠ none := by
    unfold WriterThread.result?
    rw [hr]
    exact nofun
  generalize hc' : producerStep p ⟨s, phase⟩ = c' at hm ⊢
  cases hm with
  | full hi | room hi =>
    dsimp only [ProducerPhase.stepsLeft]
    omega
  | queue hi hj =>
    dsimp only [ProducerPhase.stepsLeft]
    omega
  | retry hnone | retryFlush hnone => exact absurd hnone hlive
  | wait =>
    obtain ⟨reply, hreply⟩ := producerStep_join hr p ‹Bool›
    rw [hc'] at hreply
    cases hreply
  | requestFlush | unserved | requestStop => exact Nat.le_refl _
  | done | served | fault | join | rest => exact Nat.zero_le _

variable [Sink σ] {w : Writer σ} {sink : σ} {h : CaptureHistory}

/-- A call that is open when the thread has ended returns, however the steps are interleaved. -/
theorem Reaches.returns (hstart : CaptureSession.start w capacity = (.ok s, sink))
    (hc : Reaches p s c h) (hr : c.session.thread.phase = .ended r) {schedule : List CaptureParty}
    (hlong : c.producer.stepsLeft ≤ schedule.count .producer) :
    (c.run p schedule).reply?.isSome := by
  induction schedule generalizing c h with
  | nil =>
    obtain ⟨s, phase⟩ := c
    cases phase with
    | returned => rfl
    | _ => simp [ProducerPhase.stepsLeft] at hlong
  | cons party schedule ih =>
    cases party with
    | producer =>
      have hstep := (hc.safe hstart).stepsLeft_producerStep hr p
      have hthread := thread_of_moves ((hc.safe hstart).producerMoves p)
      rw [List.count_cons_self] at hlong
      exact ih hc.producer ((congrArg WriterThread.phase hthread).trans hr) (by
        change (c.producerStep p).producer.stepsLeft ≤ _
        omega)
    | writer =>
      have hstep : c.step p .writer = c := writerStep_of_ended hr
      rw [List.count_cons_of_ne (by decide)] at hlong
      change ((c.step p .writer).run p schedule).reply?.isSome
      rw [hstep]
      exact ih hc hr hlong

theorem endedBy_of_after {t : WriterThread σ} {call : WriterCall}
    {next : WriterThread σ → WriterThread σ}
    (hnext : ∀ t', (next t').phase ≠ .ended r)
    (hr : (t.after (t.writer.perform call) next).phase = .ended r) :
    t.writer.EndedBy call r := by
  unfold WriterThread.after WriterThread.abandon at hr
  unfold Writer.EndedBy
  generalize t.writer.perform call = called at hr ⊢
  obtain ⟨o, v⟩ := called
  dsimp only at hr ⊢
  cases o with
  | ok => exact hnext _ hr
  | error e =>
    dsimp only at hr ⊢
    split at hr
    · next cause hdrop =>
      cases hr
      exact .inr ⟨cause, hdrop, rfl⟩
    · cases hr
      exact .inl rfl
  | panicked v =>
    dsimp only at hr ⊢
    split at hr <;> cases hr <;> exact ⟨_, rfl⟩

theorem endedBy_of_finish {v : Writer σ} {f : Unit → CaptureStats}
    (hr : v.finish.1.map f = r) (hfailed : ∀ stats, r ≠ .ok stats) : v.EndedBy .flush r := by
  unfold Writer.finish at hr
  have hperform : v.perform .flush = v.flush := rfl
  unfold Writer.EndedBy
  rw [hperform]
  generalize v.flush = called at hr ⊢
  obtain ⟨o, u⟩ := called
  cases o with
  | ok => exact hfailed _ hr.symm
  | error e => exact .inl hr.symm
  | panicked v => exact ⟨_, hr.symm⟩

theorem Safe.endedBy (hs : Safe capacity c) (hrun : ∀ r, c.session.thread.phase ≠ .ended r)
    (hr : c.writerStep.session.thread.phase = .ended r) (hfailed : ∀ stats, r ≠ .ok stats) :
    ∃ call, c.session.thread.writer.EndedBy call r := by
  obtain ⟨⟨shared, ⟨phase, writer, bytes⟩, joined, queued, log⟩, producer⟩ := c
  change (WriterThread.step shared ⟨phase, writer, bytes⟩).2.phase = .ended r at hr
  cases phase with
  | loadStop | loadRequest | acknowledge => cases hr
  | lookAtRing =>
    unfold WriterThread.step WriterThread.goto at hr
    dsimp only at hr
    split at hr <;> cases hr
  | pause stop =>
    cases stop <;> cases hr
  | copyOut n =>
    rw [WriterThread.step_copyOut hs.sound hs.thread] at hr
    cases hr
  | advance batch =>
    obtain ⟨ring, hstep, -⟩ :=
      WriterThread.step_advance hs.sound hs.thread.1 hs.thread.2 writer bytes
    rw [hstep] at hr
    cases hr
  | append batch => exact ⟨.append batch, endedBy_of_after (fun _ hnext => by cases hnext) hr⟩
  | serveFlush stop requested =>
    unfold WriterThread.step at hr
    dsimp only at hr
    split at hr
    · exact ⟨.flush, endedBy_of_after (fun _ hnext => by cases hnext) hr⟩
    · cases hr
  | flushLast => exact ⟨.flush, endedBy_of_after (fun _ hnext => by cases hnext) hr⟩
  | close chunks => exact ⟨.flush, endedBy_of_finish (WriterPhase.ended.inj hr) hfailed⟩
  | ended r' => exact absurd rfl (hrun r')

/-- A thread that has failed did so on the first call on the trace writer that failed. -/
theorem Reaches.endedBy (hstart : CaptureSession.start w capacity = (.ok s, sink))
    (hc : Reaches p s c h) (hr : c.session.thread.phase = .ended r)
    (hfailed : ∀ stats, r ≠ .ok stats) :
    ∃ calls v call, w.performAll calls = (.ok (), v) ∧ v.EndedBy call r := by
  induction hc with
  | idle =>
    obtain ⟨-, ring, -, rfl⟩ := CaptureSession.start_eq_ok hstart
    cases hr
  | call hc hret hopen call ih =>
    rw [session_start] at hr
    exact ih hr
  | producer hc ih =>
    rw [thread_of_moves ((hc.safe hstart).producerMoves p)] at hr
    exact ih hr
  | @writer c h hc ih =>
    by_cases hrun : ∃ r', c.session.thread.phase = .ended r'
    · obtain ⟨r', hr'⟩ := hrun
      rw [writerStep_of_ended hr'] at hr
      exact ih hr
    · rw [not_exists] at hrun
      obtain ⟨call, hcall⟩ := (hc.safe hstart).endedBy hrun hr hfailed
      have hlive : ¬ c.Failed := fun ⟨r', hr', _⟩ => hrun r' hr'
      obtain ⟨-, haccounted⟩ := hc.invariant (invariant_accounted hstart) hstart hlive
      exact ⟨h.written, _, call, haccounted.replay, hcall⟩

/-- What a flush that succeeded has done: the request is served, and the trace writer has been
given all that was queued, and flushed behind it. -/
structure FlushCompleted (w : Writer σ) (s : CaptureSession σ) (earlier : List CaptureCall) :
    Prop where
  served : s.shared.flushed = s.shared.flushRequested
  written : ∃ calls, w.performAll (calls ++ [.flush]) = (.ok (), s.thread.writer) ∧
    WriterCall.bytes calls = WriterCall.bytes (earlier.flatMap CaptureCall.plain)

/-- How a session whose thread failed has answered its calls. -/
structure FailureReported (p : Profile) (w : Writer σ) (s s' : CaptureSession σ)
    (r : Outcome TraceError CaptureStats) (earlier : List (CaptureCall × CaptureReply))
    (reply : CaptureReply) : Prop where
  finish_fails : ∀ answer, reply ≠ .ok answer
  count_eq :
    (earlier ++ [(CaptureCall.finish, reply)]).countP (fun a => a.2 = .error (.ofEnd r)) = 1
  once : ReportedOnce r (earlier ++ [(.finish, reply)])
  /-- What is reported is the trace writer's own failure. -/
  endedBy : ∃ calls v call, w.performAll calls = (.ok (), v) ∧ v.EndedBy call r
  flushes : ∀ before after answer, earlier = before ++ (.flush, .ok answer) :: after →
    ∃ s₁, Answers p s (before ++ [(.flush, .ok answer)]) s₁ ∧
      Answers p s₁ (after ++ [(.finish, reply)]) s' ∧
      FlushCompleted w s₁ (before.map Prod.fst)
  /-- No call waits for a thread that has ended. -/
  returns : ∀ c h r' schedule, Reaches p s c h → c.session.thread.phase = .ended r' →
    c.producer.stepsLeft ≤ schedule.count .producer → (c.run p schedule).reply?.isSome

theorem Answers.told (hstart : CaptureSession.start w capacity = (.ok s, sink))
    (ha : Answers p s answers s') (hopen : ∀ a ∈ answers, a.1.closes = false) :
    Told s' answers := by
  induction ha with
  | nil =>
    obtain ⟨-, ring, -, rfl⟩ := CaptureSession.start_eq_ok hstart
    exact .inl ⟨rfl, nofun⟩
  | @call answers before call reply ha schedule hreply ih =>
    have hearlier := fun a hmem => hopen a (List.mem_append_left _ hmem)
    have hcloses := hopen (call, reply) (List.mem_append_right _ List.mem_cons_self)
    obtain ⟨c, h, hc, rfl, hret, -, hopen', -⟩ := ha.reaches hearlier
    have hcall : call ≠ .drop := by
      rintro rfl
      cases hcloses
    have hanswer := hc.answer hstart hret hopen' hcall hreply
    refine (ih hearlier).call hanswer ?_ ?_
    · intro r hr
      refine (hc.call hret hopen' call).ended_run hstart ?_ schedule
      rwa [session_start]
    · rintro stats rfl
      generalize c.session.joined = found at hanswer
      cases hanswer with
      | finished hcall =>
        subst hcall
        cases hcloses

theorem Answers.flushCompleted (hstart : CaptureSession.start w capacity = (.ok s, sink))
    {answer : Option CaptureStats} (ha : Answers p s (answers ++ [(.flush, .ok answer)]) s')
    (hopen : ∀ a ∈ answers, a.1.closes = false) :
    FlushCompleted w s' (answers.map Prod.fst) := by
  obtain ⟨c, h, hc, rfl, -, hcalls, -, hreply⟩ := ha.reaches (by
    intro a hmem
    obtain hmem | hmem := List.mem_append.mp hmem
    · exact hopen a hmem
    · rw [List.mem_singleton.mp hmem]
      rfl)
  rw [List.map_append] at hcalls
  obtain ⟨hsettled, -, -, happended, hplain, hreplay⟩ := settled_of_flush hstart hc
    (by rw [hcalls]; exact List.getLast?_concat) (hreply _ List.getLast?_concat)
  obtain ⟨calls, hwritten⟩ := hsettled.flushed_last
  refine ⟨Nat.le_antisymm (hc.numbered hstart).1 hsettled.quiet.served, calls, ?_, ?_⟩
  · rw [← hwritten]
    exact hreplay
  · have hnone : ∀ cs : List WriterCall,
        WriterCall.bytes (cs ++ [.flush]) = WriterCall.bytes cs := by
      intro cs
      rw [WriterCall.bytes_append]
      exact ByteArray.append_empty
    unfold CaptureHistory.appended at happended
    unfold CaptureHistory.plain at hplain
    rw [hwritten, hnone] at happended
    rw [hcalls, List.flatMap_append] at hplain
    exact happended.trans (hplain.symm.trans (hnone _))

/-- If the thread fails at any point, one call of the session reports how, `finish` at the latest,
and none that needs the thread succeeds behind it. -/
theorem writer_failure_is_reported_once {earlier : List (CaptureCall × CaptureReply)}
    {reply : CaptureReply} (hstart : CaptureSession.start w capacity = (.ok s, sink))
    (hopen : ∀ a ∈ earlier, a.1.closes = false)
    (hrun : Answers p s (earlier ++ [(.finish, reply)]) s')
    (hended : s'.thread.phase = .ended r) (hfailed : ∀ stats, r ≠ .ok stats) :
    FailureReported p w s s' r earlier reply := by
  obtain ⟨s₁, schedule, hearlier, hreply, rfl⟩ := hrun.of_concat
  have htold := hearlier.told hstart hopen
  obtain ⟨c, h, hc, rfl, hret, -, hopen', -⟩ := hearlier.reaches hopen
  have hfinish := hc.call hret hopen' .finish
  have hcall : CaptureCall.finish ≠ .drop := nofun
  have hanswer := hc.answer hstart hret hopen' hcall hreply
  have hnot : ∀ answer, reply ≠ .ok answer := by
    rintro answer rfl
    generalize c.session.joined = found at hanswer
    cases hanswer with
    | passed hcall => cases hcall
    | finished _ _ hr => exact hfailed _ (WriterPhase.ended.inj (hended.symm.trans hr))
    | unseen hcall => cases hcall
  have honce : ReportedOnce r (earlier ++ [(.finish, reply)]) := by
    obtain ⟨-, hall⟩ | ⟨-, r', hr', honce⟩ := htold.call hanswer
      (fun r hr => hfinish.ended_run hstart hr schedule) fun stats => hnot (some stats)
    · have hlast := hall (.finish, reply) (List.mem_append_right _ List.mem_cons_self)
      exact absurd hlast (hnot none)
    · cases hended.symm.trans hr'
      exact honce
  obtain ⟨h', hend, -⟩ := hfinish.run schedule
  refine ⟨hnot, honce.countP_eq hfailed, honce, hend.endedBy hstart hended hfailed, ?_, ?_⟩
  · rintro before after answer rfl
    have hsplit := hrun
    rw [List.append_assoc, List.cons_append, List.append_cons] at hsplit
    obtain ⟨s₁, hbefore, hafter⟩ := hsplit.split
    exact ⟨s₁, hbefore, hafter,
      hbefore.flushCompleted hstart fun a ha => hopen a (List.mem_append_left _ ha)⟩
  · intro c h r' schedule hc hr hlong
    exact hc.returns hstart hr hlong

def refusingWriter : Writer MemorySink where
  inner := ⟨magic, 0, false, ⟨false, none, none, none, none, some 2⟩⟩
  codec := .lz4 .checked
  chunkSize := ⟨4, by decide, by decide⟩
  staged := .empty
  position := magic.size
  chunksWritten := 0
  compressions := 0
  log := #[]

theorem start_refusingWriter :
    Writer.start (MemorySink.new ⟨false, none, none, none, none, some 2⟩) 4 (.lz4 .checked) =
      (.ok refusingWriter, refusingWriter.inner) := by
  have hmagic : Sink.writeAll (MemorySink.new ⟨false, none, none, none, none, some 2⟩) magic =
      (.ok (), refusingWriter.inner) := Sink.writeAll_of_writeFor (k := 2) rfl
  exact Writer.start_of_write refusingWriter.codec refusingWriter.chunkSize (by decide) hmagic

/-- The second flush meets the failure. A write still finds room behind it, the next one does not,
and all calls that need the thread find it gone. -/
theorem refusingWriter_failure_is_reported_once :
    ∃ s s', Writer.start (MemorySink.new ⟨false, none, none, none, none, some 2⟩) 4
        (.lz4 .checked) = (.ok refusingWriter, refusingWriter.inner) ∧
      CaptureSession.start refusingWriter 3 = (.ok s, refusingWriter.inner) ∧
      s'.thread.phase = .ended (.error (.io (.other "flush refused"))) ∧
      FailureReported .checked refusingWriter s s' (.error (.io (.other "flush refused")))
        [(.flush, .ok none), (.flush, .error (.file (.io (.other "flush refused")))),
          (.write ⟨#[1, 2]⟩, .ok none), (.flush, .error .writerStopped),
          (.write ⟨#[3, 4]⟩, .error .writerStopped)] (.error .writerStopped) := by
  let serving : List CaptureParty :=
    .producer :: List.replicate 6 .writer ++ [.producer, .producer]
  let alone : List CaptureParty := [.producer, .producer, .producer]
  let s : CaptureSession MemorySink :=
    ⟨⟨⟨⟨#[0, 0, 0]⟩, 0, 0⟩, false, 0, 0⟩, .start refusingWriter, false, 0, #[]⟩
  have hstart : CaptureSession.start refusingWriter 3 = (.ok s, refusingWriter.inner) :=
    CaptureSession.start_eq refusingWriter (by decide) (by decide)
  let refused : CaptureReply := .error (.file (.io (.other "flush refused")))
  let stopped : CaptureReply := .error .writerStopped
  have h₁ : Answers .checked s [(.flush, .ok none)] _ :=
    Answers.nil.call serving (by decide +kernel)
  have h₂ : Answers .checked s [(.flush, .ok none), (.flush, refused)] _ :=
    h₁.call serving (by decide +kernel)
  have h₃ : Answers .checked s
      [(.flush, .ok none), (.flush, refused), (.write ⟨#[1, 2]⟩, .ok none)] _ :=
    h₂.call alone (by decide +kernel)
  have h₄ : Answers .checked s
      [(.flush, .ok none), (.flush, refused), (.write ⟨#[1, 2]⟩, .ok none), (.flush, stopped)] _ :=
    h₃.call alone (by decide +kernel)
  have h₅ : Answers .checked s
      [(.flush, .ok none), (.flush, refused), (.write ⟨#[1, 2]⟩, .ok none), (.flush, stopped),
        (.write ⟨#[3, 4]⟩, stopped)] _ := h₄.call alone (by decide +kernel)
  have h₆ : Answers .checked s
      ([(.flush, .ok none), (.flush, refused), (.write ⟨#[1, 2]⟩, .ok none), (.flush, stopped),
        (.write ⟨#[3, 4]⟩, stopped)] ++ [(.finish, stopped)]) _ :=
    h₅.call alone (by decide +kernel)
  refine ⟨s, _, start_refusingWriter, hstart, ?_,
    writer_failure_is_reported_once hstart (by decide) h₆ ?_ nofun⟩
  · exact WriterThread.phase_of_result (by decide +kernel)
  · exact WriterThread.phase_of_result (by decide +kernel)

end Capture

end TraceCapture
