import TraceCapture.Proofs.Capture.History

set_option autoImplicit false

namespace TraceCapture

def ProducerPhase.Fits {σ : Type} (s : CaptureSession σ) : ProducerPhase → Prop
  | stalled data i => i < data.size
  | queue data i =>
      i < data.size ∧ Capture.pieceEnd s data i - i < s.shared.ring.sizeToWrite
  | _ => True

/-- The bytes that were seen in the ring are still there, at its front. -/
def WriterPhase.Fits (r : Ring) : WriterPhase → Prop
  | copyOut n => n ≤ r.sizeToRead
  | advance batch => batch.size ≤ r.sizeToRead ∧ r.contents.extract 0 batch.size = batch
  | _ => True

theorem ProducerPhase.Fits.makeRoom {σ : Type} {s t : CaptureSession σ} {phase : ProducerPhase}
    (h : phase.Fits s) (hcap : t.shared.ring.capacity = s.shared.ring.capacity)
    (hroom : s.shared.ring.sizeToWrite ≤ t.shared.ring.sizeToWrite) : phase.Fits t := by
  cases phase with
  | queue data i =>
    refine ⟨h.1, Nat.lt_of_lt_of_le ?_ hroom⟩
    have hpiece : Capture.pieceEnd t data i = Capture.pieceEnd s data i := by
      unfold Capture.pieceEnd CaptureSession.pieceSize
      rw [hcap]
    rw [hpiece]
    exact h.2
  | stalled => exact h
  | _ => trivial

theorem WriterPhase.Fits.grow {r r' : Ring} {data : ByteArray} {phase : WriterPhase}
    (h : phase.Fits r) (hr : r.Sound) (hr' : r'.Sound)
    (hcontents : r'.contents = r.contents ++ data) : phase.Fits r' := by
  have hsize := Ring.Queues.sizeToRead_eq hr
  have hsize' := Ring.Queues.sizeToRead_eq hr'
  rw [hcontents, ByteArray.size_append] at hsize'
  cases phase with
  | copyOut n =>
    change n ≤ r.sizeToRead at h
    change n ≤ r'.sizeToRead
    omega
  | advance batch =>
    obtain ⟨hle, hfront⟩ := h
    refine ⟨by omega, ?_⟩
    rw [hcontents, Bytes.extract_append_left data (by omega), hfront]
  | _ => trivial

namespace WriterThread

variable {σ : Type} [Sink σ]

theorem abandon_eq (t : WriterThread σ) {r : Outcome TraceError CaptureStats}
    (hr : ∀ stats, r ≠ .ok stats) :
    ∃ r' writer, t.abandon r = ⟨.ended r', writer, t.bytes⟩ ∧ ∀ stats, r' ≠ .ok stats := by
  unfold abandon
  generalize t.writer.drop = dropped
  obtain ⟨o, writer⟩ := dropped
  cases o with
  | panicked v => exact ⟨_, _, rfl, nofun⟩
  | ok | error => exact ⟨_, _, rfl, hr⟩

theorem failed_of_after (t : WriterThread σ) {called : Outcome TraceError Unit × Writer σ}
    (hbad : ∀ v, called ≠ (.ok (), v)) (next : WriterThread σ → WriterThread σ) :
    (t.after called next).Failed := by
  have hfailed : ∀ (w : Writer σ) {r : Outcome TraceError CaptureStats},
      (∀ stats, r ≠ .ok stats) → ({ t with writer := w }.abandon r).Failed := by
    intro w r hr
    obtain ⟨r', writer, habandon, hr'⟩ := abandon_eq { t with writer := w } hr
    exact ⟨r', congrArg phase habandon, hr'⟩
  obtain ⟨o, w⟩ := called
  cases o with
  | ok => exact absurd rfl (hbad w)
  | error e => exact hfailed w nofun
  | panicked v => exact hfailed w nofun

theorem step_copyOut {sh : CaptureShared} (h : sh.ring.Sound) {n : Nat}
    (hn : n ≤ sh.ring.sizeToRead) (w : Writer σ) (bytes : Nat) :
    step sh ⟨.copyOut n, w, bytes⟩ =
      (sh, ⟨.advance (sh.ring.contents.extract 0 n), w, bytes⟩) := by
  obtain ⟨a, b, hpeek, hfront⟩ := h.peek hn
  unfold step
  dsimp only
  rw [hpeek, ← hfront]
  rfl

theorem step_advance {sh : CaptureShared} (h : sh.ring.Sound) {batch : ByteArray}
    (hle : batch.size ≤ sh.ring.sizeToRead)
    (hfront : sh.ring.contents.extract 0 batch.size = batch) (w : Writer σ) (bytes : Nat) :
    ∃ ring, step sh ⟨.advance batch, w, bytes⟩ = ({ sh with ring }, ⟨.append batch, w, bytes⟩) ∧
      ring.Sound ∧ sh.ring.contents = batch ++ ring.contents ∧
      ring.capacity = sh.ring.capacity := by
  obtain ⟨ring, hadvance, hring⟩ := h.advance_front hle hfront
  refine ⟨ring, ?_, hring⟩
  unfold step
  dsimp only
  rw [hadvance]
  rfl

section

variable {sh : CaptureShared} {w v : Writer σ} {n : Nat}

theorem step_append {batch : ByteArray} (hok : w.append batch = (.ok (), v)) :
    step sh ⟨.append batch, w, n⟩ = (sh, ⟨.loadStop, v, n + batch.size⟩) := by
  unfold step after
  dsimp only
  rw [hok]

theorem step_serveFlush {stop : Bool} {requested : Nat} (hlt : sh.flushed < requested)
    (hok : w.flush = (.ok (), v)) :
    step sh ⟨.serveFlush stop requested, w, n⟩ = (sh, ⟨.acknowledge stop requested, v, n⟩) := by
  unfold step after
  dsimp only
  rw [if_pos hlt, hok]
  rfl

theorem step_flushLast (hok : w.flush = (.ok (), v)) :
    step sh ⟨.flushLast, w, n⟩ = (sh, ⟨.close v.chunksWritten, v, n⟩) := by
  unfold step after
  dsimp only
  rw [hok]
  rfl

theorem step_close {chunks : Nat} (hok : w.finish = (.ok (), v)) :
    step sh ⟨.close chunks, w, n⟩ = (sh, ⟨.ended (.ok ⟨n, chunks⟩), v, n⟩) := by
  unfold step
  dsimp only
  rw [hok]
  rfl

end

end WriterThread

namespace CaptureSession

variable {σ : Type}

theorem join_cases (s : CaptureSession σ) :
    s.joined = true ∧ s.join = some (.error .writerStopped, s) ∨
    s.joined = false ∧ s.thread.result? = none ∧ s.join = none ∨
    s.joined = false ∧ ∃ r answer, s.thread.phase = .ended r ∧
      s.join = some (answer, { s with joined := true }) ∧
      ∀ stats, answer = .ok stats → r = .ok stats := by
  obtain ⟨shared, ⟨phase, writer, bytes⟩, joined, queued, log⟩ := s
  cases joined with
  | true => exact .inl ⟨rfl, rfl⟩
  | false =>
    cases phase with
    | ended r =>
      refine .inr (.inr ⟨rfl, r, ?_⟩)
      cases r with
      | ok stats => exact ⟨_, rfl, rfl, fun _ h => by cases h; rfl⟩
      | error e => exact ⟨_, rfl, rfl, fun _ h => nomatch h⟩
      | panicked v => exact ⟨_, rfl, rfl, fun _ h => nomatch h⟩
    | _ => exact .inr (.inl ⟨rfl, rfl, rfl⟩)

end CaptureSession

namespace Capture

variable {σ : Type}

theorem checkThread_cases (s : CaptureSession σ) (next : ProducerPhase) :
    s.joined = false ∧ s.thread.result? = none ∧ checkThread s next = ⟨s, next⟩ ∨
    ∃ e, checkThread s next = ⟨s, .returned (.error e)⟩ ∧ s.joined = true ∨
      checkThread s next = ⟨{ s with joined := true }, .returned (.error e)⟩ ∧
        ∃ r, s.thread.phase = .ended r := by
  unfold checkThread CaptureSession.threadFault
  obtain ⟨hj, hjoin⟩ | ⟨hj, hr, hjoin⟩ | ⟨hj, r, answer, hr, hjoin, -⟩ := s.join_cases
  · rw [hjoin]
    exact .inr ⟨_, .inl ⟨rfl, hj⟩⟩
  · rw [hjoin]
    exact .inl ⟨hj, hr, rfl⟩
  · rw [hjoin]
    cases answer with
    | ok stats => exact .inr ⟨_, .inr ⟨rfl, r, hr⟩⟩
    | error e => exact .inr ⟨_, .inr ⟨rfl, r, hr⟩⟩

theorem close_eq (s : CaptureSession σ) (quiet : Bool) (r : Except CaptureError CaptureStats) :
    ∃ log reply, close s quiet r = ⟨{ s with log }, .returned reply⟩ ∧
      ∀ stats, reply = .ok (some stats) → quiet = false ∧ r = .ok stats := by
  cases quiet <;> cases r
  · exact ⟨_, _, rfl, nofun⟩
  · exact ⟨_, _, rfl, fun _ h => by cases h; exact ⟨rfl, rfl⟩⟩
  · exact ⟨_, _, rfl, nofun⟩
  · exact ⟨_, _, rfl, nofun⟩

/-- What holds in every state, also after the thread has failed. -/
structure Safe (capacity : Nat) (c : Capture σ) : Prop where
  capacity_eq : c.session.shared.ring.capacity = capacity
  capacity_ge : minRingCapacity ≤ capacity
  sound : c.session.shared.ring.Sound
  producer : c.producer.Fits c.session
  thread : c.session.thread.phase.Fits c.session.shared.ring
  joined_ended : c.session.joined = true → ∃ r, c.session.thread.phase = .ended r
  finished_ended : ∀ stats, c.producer = .returned (.ok (some stats)) →
    c.session.thread.phase = .ended (.ok stats)

section

variable {capacity : Nat} {c : Capture σ}

theorem pieceEnd_bounds (h : Safe capacity c) {data : ByteArray} {i : Nat} (hi : i < data.size) :
    i < pieceEnd c.session data i ∧ pieceEnd c.session data i ≤ data.size := by
  have hge := h.capacity_ge
  have hcap := h.capacity_eq
  unfold pieceEnd CaptureSession.pieceSize minRingCapacity at *
  omega

theorem Safe.room_of_isEmpty (h : Safe capacity c)
    (hempty : c.session.shared.ring.isEmpty = true) (data : ByteArray) (i : Nat) :
    pieceEnd c.session data i - i < c.session.shared.ring.sizeToWrite := by
  have hge := h.capacity_ge
  have hcap := h.capacity_eq
  have hwrite := Ring.Queues.sizeToWrite_eq h.sound
  rw [(Ring.Queues.isEmpty_iff h.sound).mp hempty, ByteArray.size_empty] at hwrite
  unfold pieceEnd CaptureSession.pieceSize minRingCapacity at *
  omega

theorem Safe.push_ok (h : Safe capacity c) {data : ByteArray} {i : Nat}
    (hc : c.producer = .queue data i) (p : Profile) :
    (data.extract i (pieceEnd c.session data i)).size < c.session.shared.ring.sizeToWrite ∧
      c.session.shared.ring.push p (data.extract i (pieceEnd c.session data i)) =
        (.ok (), c.session.shared.ring.put (data.extract i (pieceEnd c.session data i))) := by
  have hfits := h.producer
  rw [hc] at hfits
  obtain ⟨hi, hroom⟩ := hfits
  obtain ⟨-, hle⟩ := pieceEnd_bounds h hi
  have hsize : (data.extract i (pieceEnd c.session data i)).size <
      c.session.shared.ring.sizeToWrite := by
    rw [ByteArray.size_extract, Nat.min_eq_left hle]
    exact hroom
  exact ⟨hsize, Ring.push_of_room hsize p⟩

end

end Capture

namespace CaptureSession

variable {σ : Type} [Sink σ]

theorem start_eq_ok {writer : Writer σ} {capacity : Nat} {s : CaptureSession σ} {sink : σ}
    (h : start writer capacity = (.ok s, sink)) :
    minRingCapacity ≤ capacity ∧ ∃ ring, Ring.new capacity = .ok ring ∧
      s = ⟨⟨ring, false, 0, 0⟩, .start writer, false, 0, #[]⟩ := by
  unfold start at h
  split at h
  · split at h <;> cases h
  · next hcap =>
    refine ⟨Nat.le_of_not_lt hcap, ?_⟩
    split at h
    · cases h
    · next ring hring =>
      cases h
      exact ⟨ring, hring, rfl⟩

/-- A session starts over every ring that can be made and has room for a byte. -/
theorem start_eq (writer : Writer σ) {capacity : Nat} (hmin : minRingCapacity ≤ capacity)
    (hlt : capacity < Bytes.bufferLimit) :
    start writer capacity =
      (.ok ⟨⟨⟨⟨Array.replicate capacity 0⟩, 0, 0⟩, false, 0, 0⟩, .start writer, false, 0, #[]⟩,
        writer.inner) := by
  have hpos : 0 < capacity := Nat.lt_of_lt_of_le Nat.two_pos hmin
  unfold start
  rw [if_neg (Nat.not_lt.mpr hmin), Ring.new_eq hpos hlt]

end CaptureSession

namespace Capture

variable {σ : Type} [Sink σ]

theorem safe_idle {writer : Writer σ} {capacity : Nat} {s : CaptureSession σ} {sink : σ}
    (h : CaptureSession.start writer capacity = (.ok s, sink)) :
    Safe capacity ⟨s, .returned (.ok none)⟩ := by
  obtain ⟨hmin, ring, hring, rfl⟩ := CaptureSession.start_eq_ok h
  obtain ⟨hcap, hqueues⟩ := Ring.queues_new hring
  exact ⟨hcap, hmin, hqueues.sound, trivial, trivial, nofun, nofun⟩

end Capture

end TraceCapture
