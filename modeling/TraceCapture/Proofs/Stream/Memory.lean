import TraceCapture.Proofs.Stream.FaultFree
import TraceCapture.Proofs.Stream.LawfulSource
import TraceCapture.Proofs.Stream.Stepwise
import TraceCapture.Stream.Memory

set_option autoImplicit false

namespace TraceCapture

namespace MemorySource

theorem size_of_read {s : MemorySource} {n : Nat} {b : ByteArray} (h : (s.read n).1 = .bytes b) :
    b = s.data.extract s.position (s.position + s.available n) ∧ b.size = s.available n ∧
      (s.read n).2 = { s with position := s.position + s.available n, resumed := false } := by
  unfold read at h ⊢
  split at h
  · cases h
  · next hi =>
    rw [if_neg hi]
    dsimp only at h ⊢
    split at h
    · cases h
    · next hf =>
      rw [if_neg hf]
      cases h
      have hle := (available_le s n).2
      refine ⟨rfl, ?_, rfl⟩
      change (s.data.extract s.position (s.position + s.available n)).size = _
      rw [ByteArray.size_extract]
      omega

theorem data_read (s : MemorySource) (n : Nat) :
    (s.read n).2.data = s.data ∧ (s.read n).2.faults = s.faults ∧
      ((s.read n).1 = .interrupted → (s.read n).2.position = s.position) := by
  unfold read
  split
  · exact ⟨rfl, rfl, fun _ => rfl⟩
  · dsimp only
    split
    · exact ⟨rfl, rfl, fun _ => rfl⟩
    · exact ⟨rfl, rfl, fun h => nomatch h⟩

theorem data_seek {α : Type} (s : MemorySource) (position : Nat) (value : α) :
    (s.seek position value).2.data = s.data ∧ (s.seek position value).2.faults = s.faults ∧
      ((s.seek position value).1 = .ok value → (s.seek position value).2.position = position) := by
  unfold seek
  dsimp only
  split
  · exact ⟨rfl, rfl, fun h => nomatch h⟩
  · exact ⟨rfl, rfl, fun _ => rfl⟩

theorem of_seek_ok {α : Type} {s t : MemorySource} {position : Nat} {value a : α}
    (h : s.seek position value = (.ok a, t)) :
    a = value ∧ t = { s with seeks := s.seeks + 1, position := position } := by
  unfold seek at h
  dsimp only at h
  split at h <;> cases h
  exact ⟨rfl, rfl⟩

theorem of_seek_error {α : Type} {s t : MemorySource} {position : Nat} {value : α} {e : IoError}
    (h : s.seek position value = (.error e, t)) : t = { s with seeks := s.seeks + 1 } := by
  unfold seek at h
  dsimp only at h
  split at h <;> cases h
  rfl

instance : LawfulSource MemorySource where
  contents := data
  position := position
  contents_read s n := (data_read s n).1
  contents_seekStart s n := (data_seek s n ()).1
  contents_seekEnd s := (data_seek s _ _).1
  read_bytes s n b h := by
    obtain ⟨hb, hsize, hs⟩ := size_of_read h
    refine ⟨by rw [hsize]; exact hb, ?_⟩
    change (s.read n).2.position = _
    rw [hs, hsize]
  read_interrupted s n := (data_read s n).2.2
  position_seekStart s n := (data_seek s n ()).2.2

theorem position_read (s : MemorySource) (n : Nat) :
    s.position ≤ (s.read n).2.position ∧ ∀ b, (s.read n).1 = .bytes b →
      (s.read n).2.position = s.position + b.size ∧
        (b.size ≠ 0 → s.position + b.size ≤ s.data.size) := by
  have hbytes : ∀ b, (s.read n).1 = .bytes b → (s.read n).2.position = s.position + b.size ∧
      (b.size ≠ 0 → s.position + b.size ≤ s.data.size) := by
    intro b hb
    obtain ⟨-, hsize, hs⟩ := size_of_read hb
    have hle := (available_le s n).2
    rw [hs, hsize]
    exact ⟨rfl, by omega⟩
  refine ⟨?_, hbytes⟩
  cases hr : (s.read n).1 with
  | bytes b =>
    rw [(hbytes b hr).1]
    exact Nat.le_add_right _ _
  | interrupted => exact Nat.le_of_eq ((data_read s n).2.2 hr).symm
  | failed e =>
    unfold read at hr ⊢
    split
    · exact Nat.le_refl _
    · dsimp only
      split
      · exact Nat.le_refl _
      · exact Nat.le_add_right _ _

theorem readOn_position (s : MemorySource) (n : Nat) (got : ByteArray) :
    s.position ≤ (Source.readOn s n got).2.position ∧
      ∀ b, (Source.readOn s n got).1 = .ok b → got.size < n →
        (Source.readOn s n got).2.position = s.position + (n - got.size) ∧
          s.position + (n - got.size) ≤ s.data.size := by
  fun_induction Source.readOn s n got with
  | case1 s got hn => exact ⟨Nat.le_refl _, fun _ _ hlt => absurd hn (Nat.not_le_of_lt hlt)⟩
  | case2 s got hn b t hr hb | case5 s got hn e t hr =>
    have hread := (position_read s (n - got.size)).1
    change s.read (n - got.size) = _ at hr
    rw [hr] at hread
    refine ⟨hread, fun b hb => ?_⟩
    cases hb
  | case3 s got hn b t hr hb ih =>
    have hsize := Source.size_le s (n - got.size) b (by rw [hr])
    change s.read (n - got.size) = _ at hr
    have hread := (position_read s (n - got.size)).2 b (by rw [hr])
    have hdata := (data_read s (n - got.size)).1
    rw [hr] at hread hdata
    dsimp only at hread hdata
    rw [ByteArray.size_append, hdata] at ih
    refine ⟨by omega, fun c hc hlt => ?_⟩
    by_cases hall : got.size + b.size < n
    · have := ih.2 c hc hall
      omega
    · -- these were the last bytes that were asked for
      have ht : Source.readOn t n (got ++ b) = (.ok (got ++ b), t) := by
        rw [Source.readOn, if_pos (by rw [ByteArray.size_append]; omega)]
      rw [ht]
      dsimp only
      omega
  | case4 s got hn t hr ih =>
    change s.read (n - got.size) = _ at hr
    have hread := (data_read s (n - got.size)).2.2 (by rw [hr])
    have hdata := (data_read s (n - got.size)).1
    rw [hr] at hread hdata
    rwa [hread, hdata] at ih

theorem data_readExact? {s t : MemorySource} {n : Nat} {o : Except IoError (Option ByteArray)}
    (h : Source.readExact? s n = (o, t)) : t.data = s.data := by
  have hdata := (Source.Visits.refl (s := s) |>.readExact? n).contents_eq
  rwa [h] at hdata

/-- Where a read of exactly `n` bytes leads: not back, and if it succeeds, on by `n` bytes of the
file. -/
theorem readExact?_position {s t : MemorySource} {n : Nat} {o : Except IoError (Option ByteArray)}
    (h : Source.readExact? s n = (o, t)) :
    s.position ≤ t.position ∧
      ∀ b, o = .ok (some b) → 0 < n → t.position = s.position + n ∧ t.position ≤ s.data.size := by
  have hread := readOn_position s n .empty
  unfold Source.readExact? Source.readExact at h
  split at h
  · next b u hu =>
    cases h
    rw [hu] at hread
    refine ⟨hread.1, fun c _ hn => ?_⟩
    obtain ⟨hon, hin⟩ := hread.2 b rfl hn
    rw [hon]
    exact ⟨rfl, hin⟩
  · next u hu =>
    cases h
    rw [hu] at hread
    exact ⟨hread.1, nofun⟩
  · next e u _ hu =>
    cases h
    rw [hu] at hread
    exact ⟨hread.1, nofun⟩

end MemorySource

/-- Faults that cost no byte: reads may be interrupted and short, and the length may be wrong. -/
structure SourceFaults.Harmless (f : SourceFaults) : Prop where
  short_pos : ∀ k, f.short = some k → 0 < k
  failAt_eq : f.failAt = Word.max
  failSeek_eq : f.failSeek = .none

theorem SourceFaults.harmless_none : SourceFaults.none.Harmless := ⟨nofun, rfl, rfl⟩

namespace MemorySource

structure Sound (s : MemorySource) : Prop where
  harmless : s.faults.Harmless
  position_le : s.position ≤ s.data.size
  size_lt : s.data.size < Word.max

theorem read_ne_failed {s : MemorySource} (h : s.Sound) (n : Nat) (e : IoError) :
    (s.read n).1 ≠ .failed e := by
  have hp := h.position_le
  have hs := h.size_lt
  have hfail : ¬ (s.faults.failAt ≤ s.position ∧ n ≠ 0) := by
    rw [h.harmless.failAt_eq]
    omega
  rw [read]
  split
  · exact nofun
  · dsimp only
    rw [if_neg hfail]
    exact nofun

theorem available_pos {s : MemorySource} (h : s.Sound) {n : Nat} (hn : n ≠ 0)
    (hlt : s.position < s.data.size) : 0 < s.available n := by
  have hs := h.size_lt
  rw [available, h.harmless.failAt_eq]
  cases hshort : s.faults.short with
  | none =>
    dsimp only
    omega
  | some k =>
    have hk := h.harmless.short_pos k hshort
    dsimp only
    omega

theorem seek_of_harmless {α : Type} {s : MemorySource} (h : s.faults.Harmless) (position : Nat)
    (value : α) :
    s.seek position value = (.ok value, { s with seeks := s.seeks + 1, position := position }) := by
  rw [seek]
  apply if_neg
  dsimp only
  rw [h.failSeek_eq]
  exact nofun

theorem Sound.read {s : MemorySource} (h : s.Sound) (n : Nat) : (s.read n).2.Sound := by
  obtain ⟨hdata, hfaults, hstill⟩ := data_read s n
  refine ⟨hfaults ▸ h.harmless, ?_, hdata ▸ h.size_lt⟩
  rw [hdata]
  cases hr : (s.read n).1 with
  | bytes b =>
    obtain ⟨-, -, hs⟩ := size_of_read hr
    have hle := (available_le s n).2
    have hp := h.position_le
    rw [hs]
    dsimp only
    omega
  | interrupted =>
    rw [hstill hr]
    exact h.position_le
  | failed e => exact absurd hr (read_ne_failed h n e)

theorem sound_of_reaches {s t : MemorySource} (hs : s.Sound) (h : Source.Reaches s t) :
    t.Sound := by
  induction h with
  | refl => exact hs
  | read n _ ih => exact ih.read n
  | @seekStart t n _ hn ih =>
    change (t.seek n ()).2.Sound
    rw [seek_of_harmless ih.harmless]
    exact ⟨ih.harmless, hn, ih.size_lt⟩
  | @seekEnd t _ ih =>
    change (t.seek _ _).2.Sound
    rw [seek_of_harmless ih.harmless]
    exact ⟨ih.harmless, Nat.le_refl _, ih.size_lt⟩

theorem Sound.faultFree {s : MemorySource} (hs : s.Sound) : Source.FaultFree s := by
  intro t h
  have ht := sound_of_reaches hs h
  refine ⟨fun n e => read_ne_failed ht n e, ?_, ?_, ?_⟩
  · intro n b hr hb hn
    obtain ⟨-, hsize, -⟩ := size_of_read hr
    apply Nat.le_of_not_lt
    intro hlt
    have hpos := available_pos ht hn hlt
    omega
  · intro n _
    change (t.seek n ()).1 = _
    rw [seek_of_harmless ht.harmless]
  · refine ⟨t.faults.fakeLength.getD t.data.size, ?_⟩
    change (t.seek _ _).1 = _
    rw [seek_of_harmless ht.harmless]

theorem faults_of_visits {s t : MemorySource} (h : Source.Visits s t) : t.faults = s.faults := by
  induction h with
  | refl => rfl
  | @read t n _ ih => exact (data_read t n).2.1.trans ih
  | @seekStart t n _ ih => exact (data_seek t n ()).2.1.trans ih
  | @seekEnd t _ ih => exact (data_seek t _ _).2.1.trans ih

theorem Sound.seekable {s : MemorySource} (hs : s.Sound) : Source.Seekable s := by
  intro t h n hn
  have hdata : t.data = s.data := h.contents_eq
  have hfaults : t.faults.Harmless := faults_of_visits h ▸ hs.harmless
  change (t.seek n ()).1 = _ ∧ Source.FaultFree (t.seek n ()).2
  rw [seek_of_harmless hfaults]
  refine ⟨rfl, Sound.faultFree ⟨hfaults, hn, ?_⟩⟩
  change t.data.size < _
  rw [hdata]
  exact hs.size_lt

theorem Sound.new {data : ByteArray} (h : data.size < Word.max) {faults : SourceFaults}
    (hf : faults.Harmless) : (MemorySource.new data faults).Sound :=
  ⟨hf, Nat.zero_le _, h⟩

theorem sound_new {data : ByteArray} (h : data.size < Word.max) :
    (MemorySource.new data .none).Sound :=
  .new h SourceFaults.harmless_none

end MemorySource

namespace MemorySink

theorem write_of_faults {s : MemorySink} (h : s.faults = .none) (b : ByteArray) :
    s.write b = (.accepted b.size, { s with data := s.data ++ b, resumed := false }) := by
  obtain ⟨data, flushes, resumed, faults⟩ := s
  cases h
  change (SinkReply.accepted b.size, MemorySink.mk (data ++ b.extract 0 b.size) _ _ _) = _
  rw [ByteArray.extract_zero_size]

theorem writeAll_of_faults {s : MemorySink} (h : s.faults = .none) (hresumed : s.resumed = false)
    (b : ByteArray) : Sink.writeAll s b = (.ok (), { s with data := s.data ++ b }) := by
  obtain ⟨data, flushes, resumed, faults⟩ := s
  obtain rfl : faults = .none := h
  obtain rfl : resumed = false := hresumed
  rw [Sink.writeAll, Sink.writeFrom_eq]
  split
  · next hempty =>
    rw [ByteArray.size_eq_zero_iff.mp (Nat.le_zero.mp hempty), ByteArray.append_empty]
  · next hb =>
    have hwrite : Sink.write (⟨data, flushes, false, .none⟩ : MemorySink) b =
        (.accepted b.size, ⟨data ++ b, flushes, false, .none⟩) := write_of_faults rfl b
    rw [ByteArray.extract_zero_size, hwrite]
    dsimp only
    rw [if_neg (fun h0 => hb (Nat.le_of_eq h0)), Sink.writeFrom_eq, Nat.zero_add,
      if_pos (Nat.le_refl _)]

theorem flush_of_faults {s : MemorySink} (h : s.faults = .none) :
    s.flush = (.ok (), { s with flushes := s.flushes + 1 }) := by
  have hflush : ¬ s.faults.failFlush = some (s.flushes + 1) := by
    rw [h]
    exact nofun
  rw [flush]
  exact if_neg hflush

theorem faults_of_reaches {s t : MemorySink} (hs : s.faults = .none) (h : Sink.Reaches s t) :
    t.faults = .none := by
  induction h with
  | refl => exact hs
  | @write t b _ ih =>
    change (t.write b).2.faults = _
    rw [write_of_faults ih]
    exact ih
  | @flush t _ ih =>
    change (t.flush).2.faults = _
    rw [flush_of_faults ih]
    exact ih

theorem faultFree {s : MemorySink} (hs : s.faults = .none) : Sink.FaultFree s := by
  intro t h
  have ht := faults_of_reaches hs h
  refine ⟨?_, ?_⟩
  · intro b hb
    refine .inr ⟨b.size, Nat.pos_of_ne_zero hb, ?_⟩
    change (t.write b).1 = _
    rw [write_of_faults ht]
  · change t.flush.1 = _
    rw [flush_of_faults ht]

end MemorySink

end TraceCapture
