import TraceCapture.Proofs.Capture.Coordination
import TraceCapture.Stream.Memory

set_option autoImplicit false

namespace TraceCapture

theorem CaptureHistory.appended_append (h : CaptureHistory) (written : List WriterCall) :
    ({ h with written := h.written ++ written } : CaptureHistory).appended =
      h.appended ++ WriterCall.bytes written :=
  WriterCall.bytes_append h.written written

theorem CaptureHistory.plain_call (h : CaptureHistory) (call : CaptureCall) :
    ({ h with calls := h.calls ++ [call] } : CaptureHistory).plain = h.plain ++ call.plain := by
  simp only [plain, List.flatMap_append, List.flatMap_singleton]

namespace Capture

variable {σ : Type} {c : Capture σ} {h : CaptureHistory}

structure Accounted [Sink σ] (w : Writer σ) (c : Capture σ) (h : CaptureHistory) : Prop where
  bytes : h.appended ++ c.session.thread.phase.inHand ++ c.session.shared.ring.contents = h.queued
  asked : WriterCall.bytes h.plain = h.queued ++ c.producer.rest
  queued : c.session.queued = h.queued.size
  taken : c.session.thread.bytes = h.appended.size
  replay : w.performAll h.written = (.ok (), c.session.thread.writer)

theorem rest_of_reply (hret : c.reply?.isSome) : c.producer.rest = .empty := by
  obtain ⟨s, phase⟩ := c
  cases phase with
  | returned => rfl
  | _ => cases hret

theorem rest_start (s : CaptureSession σ) (call : CaptureCall) :
    (start s call).producer.rest = WriterCall.bytes call.plain := by
  cases call with
  | write data =>
    change data.extract 0 data.size = data ++ .empty
    rw [ByteArray.extract_zero_size, ByteArray.append_empty]
  | flush | finish => rfl
  | drop =>
    change (if s.joined then _ else _ : Capture σ).producer.rest = _
    split <;> rfl

theorem Safe.findRoom_of_isEmpty {capacity : Nat} {p : Profile} (hs : Safe capacity c)
    (hempty : c.session.shared.ring.isEmpty = true) {data : ByteArray} {i : Nat}
    (hi : i < data.size) :
    Capture.producerStep p ⟨c.session, .findRoom data i⟩ = ⟨c.session, .queue data i⟩ := by
  have hroom := hs.room_of_isEmpty hempty data i
  unfold Capture.producerStep
  dsimp only
  rw [if_neg (Nat.not_le.mpr hi), if_neg (Nat.not_le.mpr hroom)]

/-- A producer that waits for room looks again as long as the thread has not failed. -/
theorem Coordinated.producerStep_stalled {capacity : Nat} {p : Profile} (hc : Coordinated c h)
    (hs : Safe capacity c) {data : ByteArray} {i : Nat} (hstalled : c.producer = .stalled data i) :
    c.producerStep p = ⟨c.session, .findRoom data i⟩ := by
  have hwaits : c.producer.Waits := by
    rw [hstalled]
    trivial
  have hm := hs.producerMoves p
  rw [hstalled] at hm
  generalize c.producerStep p = c' at hm ⊢
  generalize c.queuedNext p = queued at hm
  cases hm with
  | retry => rfl
  | fault _ hended => exact absurd hended (hc.not_ended hwaits)

variable [Sink σ] {w : Writer σ}

theorem Accounted.look (ha : Accounted w c h) {c' : Capture σ}
    (hring : c'.session.shared.ring = c.session.shared.ring)
    (hthread : c'.session.thread = c.session.thread)
    (hqueued : c'.session.queued = c.session.queued)
    (hrest : c'.producer.rest = c.producer.rest) :
    Accounted w c' { h with queued := h.queued ++ .empty } := by
  rw [ByteArray.append_empty]
  refine ⟨?_, ?_, ?_, ?_, ?_⟩
  · rw [hthread, hring]
    exact ha.bytes
  · rw [hrest]
    exact ha.asked
  · rw [hqueued]
    exact ha.queued
  · rw [hthread]
    exact ha.taken
  · rw [hthread]
    exact ha.replay

theorem Accounted.producerMove {c' : Capture σ} {queued : ByteArray} (ha : Accounted w c h)
    (hc : Coordinated c h) (hm : ProducerMoves c.session c.producer c' queued) :
    Accounted w c' { h with queued := h.queued ++ queued } := by
  obtain ⟨s, phase⟩ := c
  dsimp only at hm
  cases hm with
  | done hend =>
    refine ha.look rfl rfl rfl (Eq.symm ?_)
    exact ByteArray.extract_eq_empty_iff.mpr (Nat.le_trans (Nat.min_le_left _ _) hend)
  | queue hi hj hring hsound hcap =>
    rename_i data i j ring
    have hsize : (data.extract i j).size = j - i := by
      rw [ByteArray.size_extract, Nat.min_eq_left hj]
    have hsplit : data.extract i data.size = data.extract i j ++ data.extract j data.size :=
      (Bytes.extract_append_extract_rest data (Nat.le_of_lt hi)).symm
    refine ⟨?_, ?_, ?_, ha.taken, ha.replay⟩
    · change h.appended ++ s.thread.phase.inHand ++ ring.contents = _
      rw [hring, ← ByteArray.append_assoc]
      exact congrArg (· ++ data.extract i j) ha.bytes
    · change WriterCall.bytes h.plain = h.queued ++ data.extract i j ++ data.extract j data.size
      rw [ByteArray.append_assoc, ← hsplit]
      exact ha.asked
    · change s.queued + (j - i) = _
      rw [ByteArray.size_append, hsize]
      exact congrArg (· + (j - i)) ha.queued
  | fault hwaits hended =>
    exact absurd hended (hc.not_ended hwaits)
  | _ => exact ha.look rfl rfl rfl rfl

theorem Accounted.step (ha : Accounted w c h) {sh : CaptureShared} {t : WriterThread σ}
    {written : List WriterCall}
    (hbytes : WriterCall.bytes written ++ (t.phase.inHand ++ sh.ring.contents) =
      c.session.thread.phase.inHand ++ c.session.shared.ring.contents)
    (htaken : t.bytes = c.session.thread.bytes + (WriterCall.bytes written).size)
    (hreplay : c.session.thread.writer.performAll written = (.ok (), t.writer)) :
    Accounted w ⟨{ c.session with shared := sh, thread := t }, c.producer⟩
      { h with written := h.written ++ written } := by
  refine ⟨?_, ha.asked, ha.queued, ?_, ?_⟩
  · have hold := ha.bytes
    rw [ByteArray.append_assoc, ← hbytes] at hold
    rw [CaptureHistory.appended_append, ByteArray.append_assoc, ByteArray.append_assoc]
    exact hold
  · rw [CaptureHistory.appended_append, ByteArray.size_append, ← ha.taken]
    exact htaken
  · rw [Writer.performAll_append, ha.replay]
    exact hreplay

theorem Accounted.writerMove (ha : Accounted w c h) {sh : CaptureShared} {t : WriterThread σ}
    {written : List WriterCall}
    (hm : WriterMoves c.session.shared c.session.thread.writer c.session.thread.bytes
      c.session.thread.phase sh t written) (hok : ¬ t.Failed) :
    Accounted w ⟨{ c.session with shared := sh, thread := t }, c.producer⟩
      { h with written := h.written ++ written } := by
  obtain ⟨⟨shared, ⟨phase, writer, bytes⟩, joined, queued, log⟩, producer⟩ := c
  dsimp only at hm
  cases hm with
  | advance hring hsound hcap =>
    refine ha.step ?_ rfl rfl
    rw [hring]
    simp [WriterCall.bytes, WriterPhase.inHand]
  | append hcall =>
    refine ha.step ?_ ?_ ?_
    · simp [WriterCall.bytes, WriterPhase.inHand]
    · simp [WriterCall.bytes]
    · rwa [Writer.performAll_singleton]
  | flush | flushLast | close =>
    rename_i hcall
    refine ha.step (by simp [WriterCall.bytes, WriterPhase.inHand]) rfl ?_
    rwa [Writer.performAll_singleton]
  | fail _ hfailed => exact absurd hfailed hok
  | _ => exact ha.step (by simp [WriterCall.bytes, WriterPhase.inHand]) rfl rfl

theorem Accounted.call (ha : Accounted w c h) (hret : c.reply?.isSome) (call : CaptureCall) :
    Accounted w (start c.session call) { h with calls := h.calls ++ [call] } := by
  have hsession := session_start c.session call
  refine ⟨?_, ?_, ?_, ?_, ?_⟩
  · rw [hsession]
    exact ha.bytes
  · have hasked := ha.asked
    rw [rest_of_reply hret, ByteArray.append_empty] at hasked
    rw [CaptureHistory.plain_call, WriterCall.bytes_append, rest_start, hasked]
  · rw [hsession]
    exact ha.queued
  · rw [hsession]
    exact ha.taken
  · rw [hsession]
    exact ha.replay

theorem invariant_accounted {capacity : Nat} {s : CaptureSession σ} {sink : σ}
    (hstart : CaptureSession.start w capacity = (.ok s, sink)) :
    Invariant capacity s fun c h => Coordinated c h ∧ Accounted w c h where
  idle := by
    refine ⟨(invariant_coordinated hstart).idle, ?_⟩
    obtain ⟨-, ring, hring, rfl⟩ := CaptureSession.start_eq_ok hstart
    have hempty : ring.contents = .empty := (Ring.queues_new hring).2.contents_eq
    exact ⟨hempty, rfl, rfl, rfl, rfl⟩
  call _ hc hret hopen call := ⟨hc.1.call hret hopen call, hc.2.call hret call⟩
  producer _ hc hm := ⟨hc.1.producerMove hm, hc.2.producerMove hc.1 hm⟩
  writer _ hc hm hok := ⟨hc.1.writerMove hm hok, hc.2.writerMove hm hok⟩

/-- Whatever calls are made and however the steps of the two threads are interleaved: as long as the
thread has not failed, no byte is lost, repeated or moved, no operation on the ring fails, and a
producer does not wait for room in an empty ring. -/
theorem pipeline_keeps_bytes {p : Profile} {capacity : Nat} {s : CaptureSession σ} {sink : σ}
    (hstart : CaptureSession.start w capacity = (.ok s, sink)) (hreach : Reaches p s c h)
    (hok : ¬ c.Failed) :
    h.appended ++ c.session.thread.phase.inHand ++ c.session.shared.ring.contents = h.queued ∧
    WriterCall.bytes h.plain = h.queued ++ c.producer.rest ∧
    w.performAll h.written = (.ok (), c.session.thread.writer) ∧
    (∀ data i, c.producer = .queue data i → ∃ ring,
      c.session.shared.ring.push p (data.extract i (pieceEnd c.session data i)) = (.ok (), ring) ∧
      ring.contents = c.session.shared.ring.contents ++
        data.extract i (pieceEnd c.session data i)) ∧
    (∀ n, c.session.thread.phase = .copyOut n → ∃ head tail,
      c.session.shared.ring.peek n = .ok (head, tail) ∧
      head ++ tail = c.session.shared.ring.contents.extract 0 n) ∧
    (∀ batch, c.session.thread.phase = .advance batch → ∃ ring,
      c.session.shared.ring.advance batch.size = (.ok (), ring) ∧
      c.session.shared.ring.contents = batch ++ ring.contents) ∧
    (c.session.shared.ring.isEmpty = true →
      (∀ data i, pieceEnd c.session data i - i < c.session.shared.ring.sizeToWrite) ∧
      (∀ data i, c.producer = .findRoom data i → i < data.size →
        c.producerStep p = ⟨c.session, .queue data i⟩) ∧
      ∀ data i, c.producer = .stalled data i →
        (c.producerStep p).producerStep p = ⟨c.session, .queue data i⟩) := by
  have hs := hreach.safe hstart
  obtain ⟨hc, ha⟩ := hreach.invariant (invariant_accounted hstart) hstart hok
  refine ⟨ha.bytes, ha.asked, ha.replay, ?_, ?_, ?_, ?_⟩
  · intro data i hqueue
    obtain ⟨hroom, hpush⟩ := hs.push_ok hqueue p
    exact ⟨_, hpush, (hs.sound.put hroom).2.1⟩
  · intro n hcopy
    have hfits := hs.thread
    rw [hcopy] at hfits
    exact hs.sound.peek hfits
  · intro batch hadvance
    have hfits := hs.thread
    rw [hadvance] at hfits
    obtain ⟨ring, hring, -, hcontents, -⟩ := hs.sound.advance_front hfits.1 hfits.2
    exact ⟨ring, hring, hcontents⟩
  · intro hempty
    refine ⟨hs.room_of_isEmpty hempty, ?_, ?_⟩
    · intro data i hlook hi
      obtain ⟨session, producer⟩ := c
      cases hlook
      exact hs.findRoom_of_isEmpty hempty hi
    · intro data i hstalled
      have hi := hs.producer
      rw [hstalled] at hi
      rw [hc.producerStep_stalled hs hstalled]
      exact hs.findRoom_of_isEmpty hempty hi

/-- Four bytes over a ring of three: the thread holds the first two while the others, around the
physical end, are in the ring. -/
theorem pipeline_keeps_bytes_around_the_end :
    ∃ (w : Writer MemorySink) (s : CaptureSession MemorySink) (c : Capture MemorySink)
      (h : CaptureHistory), CaptureSession.start w 3 = (.ok s, w.inner) ∧
      Reaches .checked s c h ∧ ¬ c.Failed ∧ h.plain = [.append ⟨#[1, 2, 3, 4]⟩] ∧
      c.session.thread.phase.inHand = ⟨#[1, 2]⟩ ∧ c.session.shared.ring.contents = ⟨#[3, 4]⟩ ∧
      h.appended ++ ⟨#[1, 2, 3, 4]⟩ = h.queued ∧ h.queued = ⟨#[1, 2, 3, 4]⟩ := by
  let w : Writer MemorySink :=
    ⟨.new .none, .lz4 .checked, ⟨4, by decide, by decide⟩, .empty, magic.size, 0, 0, #[]⟩
  let s : CaptureSession MemorySink :=
    ⟨⟨⟨⟨#[0, 0, 0]⟩, 0, 0⟩, false, 0, 0⟩, .start w, false, 0, #[]⟩
  have hstart : CaptureSession.start w 3 = (.ok s, w.inner) :=
    CaptureSession.start_eq w (by decide) (by decide)
  have hcall : Reaches .checked s (start s (.write ⟨#[1, 2, 3, 4]⟩))
      ⟨[.write ⟨#[1, 2, 3, 4]⟩], .empty, []⟩ := .call .idle rfl nofun _
  let schedule : List CaptureParty :=
    [.producer, .producer] ++ List.replicate 5 .writer ++ [.producer, .producer]
  let c := run .checked (start s (.write ⟨#[1, 2, 3, 4]⟩)) schedule
  have hhand : c.session.thread.phase.inHand = ⟨#[1, 2]⟩ := by decide
  have hcontents : c.session.shared.ring.contents = ⟨#[3, 4]⟩ := by decide
  have hrest : c.producer.rest = .empty := by decide
  obtain ⟨h, hreach, hcalls⟩ : ∃ h, Reaches .checked s c h ∧ _ := hcall.run schedule
  clear_value c
  have hok : ¬ c.Failed := by
    rintro ⟨r, hr, -⟩
    rw [hr] at hhand
    change ByteArray.empty = _ at hhand
    exact absurd hhand (by decide)
  have hplain : h.plain = [.append ⟨#[1, 2, 3, 4]⟩] := by
    rw [CaptureHistory.plain, hcalls]
    rfl
  obtain ⟨hbytes, hasked, -⟩ := pipeline_keeps_bytes hstart hreach hok
  rw [ByteArray.append_assoc, hhand, hcontents] at hbytes
  rw [hplain, hrest, ByteArray.append_empty] at hasked
  exact ⟨w, s, c, h, hstart, hreach, hok, hplain, hhand, hcontents, hbytes,
    hasked.symm.trans ByteArray.append_empty⟩

end Capture

end TraceCapture
