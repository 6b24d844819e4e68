import Mathlib.Data.List.Induction
import TraceCapture.Proofs.Capture.Barrier

set_option autoImplicit false

namespace TraceCapture

def CaptureError.ofEnd : Outcome TraceError CaptureStats → CaptureError
  | .ok _ => .writerStopped
  | .error e => .file e
  | .panicked _ => .writerPanicked

theorem WriterThread.phase_of_result {σ : Type} {t : WriterThread σ}
    {r : Outcome TraceError CaptureStats} (h : t.result? = some r) : t.phase = .ended r := by
  unfold result? at h
  split at h
  · next hphase => rw [hphase, Option.some.inj h]
  · cases h

namespace CaptureSession

variable {σ : Type} {s : CaptureSession σ}

theorem join_of_joined (hj : s.joined = true) : s.join = some (.error .writerStopped, s) :=
  if_pos hj

theorem join_of_ended {r : Outcome TraceError CaptureStats} (hj : s.joined = false)
    (hr : s.thread.phase = .ended r) :
    s.join = some (match r with
      | .ok stats => .ok stats
      | _ => .error (.ofEnd r), { s with joined := true }) := by
  obtain ⟨shared, ⟨phase, writer, bytes⟩, joined, queued, log⟩ := s
  cases hj
  cases hr
  cases r <;> rfl

theorem join_of_running (hj : s.joined = false) (hr : s.thread.result? = none) :
    s.join = none := by
  unfold join
  rw [if_neg (by rw [hj]; exact Bool.false_ne_true), hr]
  rfl

end CaptureSession

namespace Capture

variable {σ : Type} {p : Profile} {c : Capture σ} {s : CaptureSession σ}

/-- What a call may answer, given whether the session had taken notice of the end of the thread
before the call, and the session after it. -/
inductive Answer (call : CaptureCall) (s : CaptureSession σ) : Bool → CaptureReply → Prop where
  | passed (hcall : call.closes = false) (hs : s.joined = false) : Answer call s false (.ok none)
  | finished {stats : CaptureStats} (hcall : call = .finish) (hs : s.joined = true)
      (hr : s.thread.phase = .ended (.ok stats)) : Answer call s false (.ok (some stats))
  | reported {r : Outcome TraceError CaptureStats} (hs : s.joined = true)
      (hr : s.thread.phase = .ended r) : Answer call s false (.error (.ofEnd r))
  | stopped (hs : s.joined = true) : Answer call s true (.error .writerStopped)
  /-- There was room in the ring, although nobody empties it any more. -/
  | unseen {data : ByteArray} (hcall : call = .write data) (hs : s.joined = true) :
      Answer call s true (.ok none)

/-- What holds while a call is made: the session takes notice only when the call returns. -/
def Answering (call : CaptureCall) (found : Bool) (s : CaptureSession σ) : ProducerPhase → Prop
  | .findRoom .. | .stalled .. | .queue .. => (∃ data, call = .write data) ∧ s.joined = found
  | .requestFlush => call = .flush ∧ s.joined = found
  | .awaitFlush ticket | .waiting ticket =>
      call = .flush ∧ s.joined = found ∧ (found = true → s.shared.flushed < ticket)
  | .requestStop quiet | .join quiet => (call = .finish ∧ quiet = false) ∧ s.joined = found
  | .returned reply => Answer call s found reply

theorem answering_start {call : CaptureCall} (hcall : call ≠ .drop) :
    Answering call s.joined (start s call).session (start s call).producer := by
  cases call with
  | write data => exact ⟨⟨data, rfl⟩, rfl⟩
  | flush => exact ⟨rfl, rfl⟩
  | finish => exact ⟨⟨rfl, rfl⟩, rfl⟩
  | drop => exact absurd rfl hcall

theorem answering_checkThread {call : CaptureCall} {found : Bool} {next : ProducerPhase}
    (hj : s.joined = found) (hnext : Answering call found s next) :
    Answering call found (checkThread s next).session (checkThread s next).producer := by
  unfold checkThread CaptureSession.threadFault
  cases found with
  | true =>
    rw [CaptureSession.join_of_joined hj]
    exact .stopped hj
  | false =>
    cases hr : s.thread.result? with
    | none =>
      rw [CaptureSession.join_of_running hj hr]
      exact hnext
    | some r =>
      have hended := WriterThread.phase_of_result hr
      have hanswer : Answer call { s with joined := true } false (.error (.ofEnd r)) :=
        .reported rfl hended
      rw [CaptureSession.join_of_ended hj hended]
      cases r <;> exact hanswer

theorem answering_join {found : Bool} (hj : s.joined = found) :
    Answering .finish found (producerStep p ⟨s, .join false⟩).session
      (producerStep p ⟨s, .join false⟩).producer := by
  unfold Capture.producerStep
  dsimp only
  cases found with
  | true =>
    rw [CaptureSession.join_of_joined hj]
    exact .stopped hj
  | false =>
    cases hr : s.thread.result? with
    | none =>
      rw [CaptureSession.join_of_running hj hr]
      exact ⟨⟨rfl, rfl⟩, hj⟩
    | some r =>
      have hended := WriterThread.phase_of_result hr
      have hanswer : Answer .finish { s with joined := true } false (.error (.ofEnd r)) :=
        .reported rfl hended
      rw [CaptureSession.join_of_ended hj hended]
      cases r with
      | ok stats => exact .finished rfl rfl hended
      | error e => exact hanswer
      | panicked v => exact hanswer

variable {capacity : Nat} {call : CaptureCall} {found : Bool}

theorem answering_producerStep (hsafe : Safe capacity c) (hn : Numbered c)
    (h : Answering call found c.session c.producer) (p : Profile) :
    Answering call found (c.producerStep p).session (c.producerStep p).producer := by
  obtain ⟨s, phase⟩ := c
  dsimp only at h
  cases phase with
  | findRoom data i =>
    obtain ⟨⟨_, rfl⟩, hj⟩ := h
    unfold Capture.producerStep
    dsimp only
    split
    · cases found with
      | true => exact .unseen rfl hj
      | false => exact .passed rfl hj
    · split
      · exact ⟨⟨_, rfl⟩, hj⟩
      · exact ⟨⟨_, rfl⟩, hj⟩
  | stalled data i => exact answering_checkThread h.2 h
  | queue data i =>
    unfold Capture.producerStep
    dsimp only
    have hpush := (hsafe.push_ok rfl p).2
    dsimp only at hpush
    rw [hpush]
    exact h
  | requestFlush =>
    refine ⟨h.1, h.2, fun _ => ?_⟩
    exact Nat.lt_succ_of_le hn.1
  | awaitFlush ticket =>
    obtain ⟨rfl, hj, hunserved⟩ := h
    unfold Capture.producerStep
    dsimp only
    split
    · exact ⟨rfl, hj, hunserved⟩
    · next hserved =>
      cases found with
      -- a ticket that was drawn after the thread had ended is never served
      | true => exact absurd (hunserved rfl) hserved
      | false => exact .passed rfl hj
  | waiting ticket => exact answering_checkThread h.2.1 h
  | requestStop quiet => exact h
  | join quiet =>
    obtain ⟨⟨rfl, rfl⟩, hj⟩ := h
    exact answering_join hj
  | returned reply => exact h

theorem joined_writerStep [Sink σ] (c : Capture σ) :
    c.writerStep.session.joined = c.session.joined := rfl

theorem writerStep_of_ended [Sink σ] {r : Outcome TraceError CaptureStats}
    (hr : c.session.thread.phase = .ended r) : c.writerStep = c := by
  obtain ⟨⟨shared, ⟨phase, writer, bytes⟩, joined, queued, log⟩, producer⟩ := c
  cases hr
  rfl

/-- A session that has taken notice sees no more steps of the thread. -/
theorem answering_writerStep [Sink σ] (hsafe : Safe capacity c)
    (h : Answering call found c.session c.producer) :
    Answering call found c.writerStep.session c.writerStep.producer := by
  cases hj : c.session.joined with
  | true =>
    obtain ⟨r, hr⟩ := hsafe.joined_ended hj
    rwa [writerStep_of_ended hr]
  | false =>
    have hj' := (joined_writerStep c).trans hj
    have hproducer : c.writerStep.producer = c.producer := rfl
    rw [hproducer]
    generalize c.producer = phase at h
    cases phase with
    | findRoom | stalled | queue => exact ⟨h.1, hj'.trans (hj.symm.trans h.2)⟩
    | requestFlush => exact ⟨h.1, hj'.trans (hj.symm.trans h.2)⟩
    | awaitFlush ticket | waiting ticket =>
      obtain ⟨hcall, hfound, -⟩ := h
      obtain rfl := hj.symm.trans hfound
      exact ⟨hcall, hj', nofun⟩
    | requestStop | join => exact ⟨h.1, hj'.trans (hj.symm.trans h.2)⟩
    | returned reply =>
      cases h with
      | passed hcall => exact .passed hcall hj'
      | finished _ hs | reported hs | stopped hs | unseen _ hs => cases hj.symm.trans hs

/-- The calls of a session with their answers, in any order of the steps of the two threads. -/
inductive Answers [Sink σ] (p : Profile) (s : CaptureSession σ) :
    List (CaptureCall × CaptureReply) → CaptureSession σ → Prop where
  | nil : Answers p s [] s
  | call {answers : List (CaptureCall × CaptureReply)} {before : CaptureSession σ}
      {call : CaptureCall} {reply : CaptureReply} (h : Answers p s answers before)
      (schedule : List CaptureParty)
      (hreply : ((start before call).run p schedule).reply? = some reply) :
      Answers p s (answers ++ [(call, reply)]) ((start before call).run p schedule).session

section

variable [Sink σ] {w : Writer σ} {sink : σ} {h : CaptureHistory}

theorem Reaches.answering (hstart : CaptureSession.start w capacity = (.ok s, sink))
    (hc : Reaches p s c h) (ha : Answering call found c.session c.producer)
    (schedule : List CaptureParty) :
    Answering call found (c.run p schedule).session (c.run p schedule).producer := by
  induction schedule generalizing c h with
  | nil => exact ha
  | cons party schedule ih =>
    cases party with
    | producer =>
      exact ih hc.producer
        (answering_producerStep (hc.safe hstart) (hc.numbered hstart) ha p)
    | writer => exact ih hc.writer (answering_writerStep (hc.safe hstart) ha)

/-- Every call but the one that ends a session quietly answers as it should. -/
theorem Reaches.answer (hstart : CaptureSession.start w capacity = (.ok s, sink))
    (hc : Reaches p s c h) (hret : c.reply?.isSome) (hopen : h.Open) {reply : CaptureReply}
    {schedule : List CaptureParty} (hcall : call ≠ .drop)
    (hreply : ((start c.session call).run p schedule).reply? = some reply) :
    Answer call ((start c.session call).run p schedule).session c.session.joined reply := by
  have ha := (hc.call hret hopen call).answering hstart (answering_start hcall) schedule
  generalize (start c.session call).run p schedule = c' at ha hreply ⊢
  obtain ⟨s', phase⟩ := c'
  cases phase with
  | returned reply' =>
    cases hreply
    exact ha
  | _ => cases hreply

theorem Reaches.ended_run (hstart : CaptureSession.start w capacity = (.ok s, sink))
    (hc : Reaches p s c h) {r : Outcome TraceError CaptureStats}
    (hr : c.session.thread.phase = .ended r) (schedule : List CaptureParty) :
    (c.run p schedule).session.thread.phase = .ended r := by
  induction schedule generalizing c h with
  | nil => exact hr
  | cons party schedule ih =>
    cases party with
    | producer =>
      have hthread := thread_of_moves ((hc.safe hstart).producerMoves p)
      exact ih hc.producer ((congrArg WriterThread.phase hthread).trans hr)
    | writer =>
      have hstep := writerStep_of_ended hr
      exact ih hc.writer ((congrArg (·.session.thread.phase) hstep).trans hr)

variable {s' : CaptureSession σ} {answers before after : List (CaptureCall × CaptureReply)}

theorem Answers.reaches (ha : Answers p s answers s')
    (hopen : ∀ a ∈ answers, a.1.closes = false) :
    ∃ c h, Reaches p s c h ∧ c.session = s' ∧ c.reply?.isSome ∧
      h.calls = answers.map Prod.fst ∧ h.Open ∧
      ∀ a, answers.getLast? = some a → c.reply? = some a.2 := by
  induction ha with
  | nil => exact ⟨_, _, .idle, rfl, rfl, rfl, nofun, nofun⟩
  | @call answers before call reply ha schedule hreply ih =>
    obtain ⟨c, h, hc, rfl, hret, hcalls, hopen', -⟩ :=
      ih fun a ha => hopen a (List.mem_append_left _ ha)
    obtain ⟨h', hc', hcalls'⟩ := (hc.call hret hopen' call).run schedule
    have hall : h'.calls = (answers ++ [(call, reply)]).map Prod.fst := by
      rw [hcalls', List.map_append, hcalls]
      rfl
    refine ⟨_, h', hc', rfl, by rw [hreply]; rfl, hall, ?_, ?_⟩
    · unfold CaptureHistory.Open
      rw [hall]
      intro call hcall
      obtain ⟨a, ha, rfl⟩ := List.mem_map.mp hcall
      exact hopen a ha
    · intro a ha
      rw [List.getLast?_concat] at ha
      cases ha
      exact hreply

theorem Answers.of_concat {call : CaptureCall} {reply : CaptureReply}
    (ha : Answers p s (before ++ [(call, reply)]) s') :
    ∃ s₁ schedule, Answers p s before s₁ ∧
      ((start s₁ call).run p schedule).reply? = some reply ∧
      s' = ((start s₁ call).run p schedule).session := by
  generalize hanswers : before ++ [(call, reply)] = answers at ha
  cases ha with
  | nil => simp at hanswers
  | call ha schedule hreply =>
    obtain ⟨rfl, hlast⟩ := List.append_inj' hanswers rfl
    cases hlast
    exact ⟨_, schedule, ha, hreply, rfl⟩

theorem Answers.split (ha : Answers p s (before ++ after) s') :
    ∃ s₁, Answers p s before s₁ ∧ Answers p s₁ after s' := by
  induction after using List.reverseRecOn generalizing s' with
  | nil =>
    rw [List.append_nil] at ha
    exact ⟨s', ha, .nil⟩
  | append_singleton after a ih =>
    rw [← List.append_assoc] at ha
    obtain ⟨s₂, schedule, hrun, hreply, rfl⟩ := ha.of_concat
    obtain ⟨s₁, hbefore, hafter⟩ := ih hrun
    exact ⟨s₁, hbefore, hafter.call schedule hreply⟩

end

end Capture

end TraceCapture
