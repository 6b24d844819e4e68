import TraceCapture.Stream.Source

set_option autoImplicit false

namespace TraceCapture

class LawfulSource (σ : Type) extends Source σ where
  contents : σ → ByteArray
  position : σ → Nat
  contents_read : ∀ s n, contents (Source.read s n).2 = contents s
  contents_seekStart : ∀ s n, contents (Source.seekStart s n).2 = contents s
  contents_seekEnd : ∀ s, contents (Source.seekEnd s).2 = contents s
  read_bytes : ∀ s n b, (Source.read s n).1 = .bytes b →
    b = (contents s).extract (position s) (position s + b.size) ∧
      position (Source.read s n).2 = position s + b.size
  read_interrupted : ∀ s n, (Source.read s n).1 = .interrupted →
    position (Source.read s n).2 = position s
  position_seekStart : ∀ s n, (Source.seekStart s n).1 = .ok () →
    position (Source.seekStart s n).2 = n

namespace Source

open LawfulSource

variable {σ : Type} [LawfulSource σ]

/-- The states that a source can be brought to without leaving its file. -/
inductive Reaches (s : σ) : σ → Prop where
  | refl : Reaches s s
  | read {t : σ} (n : Nat) (h : Reaches s t) : Reaches s (Source.read t n).2
  | seekStart {t : σ} (n : Nat) (h : Reaches s t) (hn : n ≤ (contents t).size) :
      Reaches s (Source.seekStart t n).2
  | seekEnd {t : σ} (h : Reaches s t) : Reaches s (Source.seekEnd t).2

theorem Reaches.trans {s t u : σ} (h : Reaches s t) (h' : Reaches t u) : Reaches s u := by
  induction h' with
  | refl => exact h
  | read n _ ih => exact .read n ih
  | seekStart n _ hn ih => exact .seekStart n ih hn
  | seekEnd _ ih => exact .seekEnd ih

/-- No read fails, only reads at the end of the file deliver nothing, and no seek to a position of
the file fails. -/
def FaultFree (s : σ) : Prop :=
  ∀ t, Reaches s t →
    (∀ n e, (Source.read t n).1 ≠ .failed e) ∧
    (∀ n b, (Source.read t n).1 = .bytes b → b.size = 0 → n ≠ 0 →
      (contents t).size ≤ LawfulSource.position t) ∧
    (∀ n, n ≤ (contents t).size → (Source.seekStart t n).1 = .ok ()) ∧
    ∃ length, (Source.seekEnd t).1 = .ok length

theorem FaultFree.of_reaches {s t : σ} (hs : FaultFree s) (h : Reaches s t) : FaultFree t :=
  fun u hu => hs u (h.trans hu)

inductive Visits (s : σ) : σ → Prop where
  | refl : Visits s s
  | read {t : σ} (n : Nat) (h : Visits s t) : Visits s (Source.read t n).2
  | seekStart {t : σ} (n : Nat) (h : Visits s t) : Visits s (Source.seekStart t n).2
  | seekEnd {t : σ} (h : Visits s t) : Visits s (Source.seekEnd t).2

theorem Visits.contents_eq {s t : σ} (h : Visits s t) : contents t = contents s := by
  induction h with
  | refl => rfl
  | read n _ ih => rw [contents_read, ih]
  | seekStart n _ ih => rw [contents_seekStart, ih]
  | seekEnd _ ih => rw [contents_seekEnd, ih]

theorem Visits.readExact? {s t : σ} (h : Visits s t) (n : Nat) :
    Visits s (Source.readExact? t n).2 := by
  have hread : ∀ t got, Visits s t → Visits s (Source.readOn t n got).2 := by
    intro t got h
    fun_induction Source.readOn t n got with
    | case1 t got hn => exact h
    | case2 t got hn b u hr hb | case5 t got hn e u hr =>
      have hu := h.read (n - got.size)
      rwa [hr] at hu
    | case3 t got hn b u hr hb ih | case4 t got hn u hr ih =>
      have hu := h.read (n - got.size)
      rw [hr] at hu
      exact ih hu
  have hu := hread t .empty h
  unfold Source.readExact? Source.readExact
  split <;> simp_all

def Seekable (s : σ) : Prop :=
  ∀ t, Visits s t → ∀ n, n ≤ (contents t).size →
    (Source.seekStart t n).1 = .ok () ∧ FaultFree (Source.seekStart t n).2

structure At (s : σ) (file : ByteArray) (position : Nat) : Prop where
  faultFree : FaultFree s
  contents_eq : contents s = file
  position_eq : LawfulSource.position s = position

theorem At.of_read_bytes {s t : σ} {file b : ByteArray} {i n : Nat} (h : At s file i)
    (hr : Source.read s n = (.bytes b, t)) :
    At t file (i + b.size) ∧ b = file.extract i (i + b.size) ∧
      (b.size = 0 → n ≠ 0 → file.size ≤ i) := by
  have hb := read_bytes s n b (by rw [hr])
  have hend := (h.faultFree s .refl).2.1 n b (by rw [hr])
  have hc := contents_read s n
  have ht := Reaches.refl (s := s) |>.read n
  rw [hr] at hb hc ht
  rw [h.contents_eq, h.position_eq] at hb
  rw [h.contents_eq, h.position_eq] at hend
  exact ⟨⟨h.faultFree.of_reaches ht, hc.trans h.contents_eq, hb.2⟩, hb.1, hend⟩

theorem At.of_read_interrupted {s t : σ} {file : ByteArray} {i n : Nat} (h : At s file i)
    (hr : Source.read s n = (.interrupted, t)) : At t file i := by
  have hp := read_interrupted s n (by rw [hr])
  have hc := contents_read s n
  have ht := Reaches.refl (s := s) |>.read n
  rw [hr] at hp hc ht
  exact ⟨h.faultFree.of_reaches ht, hc.trans h.contents_eq, hp.trans h.position_eq⟩

theorem At.seekStart {s : σ} {file : ByteArray} {i n : Nat} (h : At s file i)
    (hn : n ≤ file.size) :
    ∃ t, Source.seekStart s n = (.ok (), t) ∧ At t file n := by
  rw [← h.contents_eq] at hn
  have hok := (h.faultFree s .refl).2.2.1 n hn
  have hp := position_seekStart s n hok
  have hc := contents_seekStart s n
  exact ⟨(Source.seekStart s n).2, Prod.ext hok rfl,
    h.faultFree.of_reaches (.seekStart n .refl hn), hc.trans h.contents_eq, hp⟩

theorem At.seekEnd {s : σ} {file : ByteArray} {i : Nat} (h : At s file i) :
    ∃ length t, Source.seekEnd s = (.ok length, t) ∧ ∃ j, At t file j := by
  obtain ⟨length, hok⟩ := (h.faultFree s .refl).2.2.2
  have hc := contents_seekEnd s
  exact ⟨length, (Source.seekEnd s).2, Prod.ext hok rfl, _,
    h.faultFree.of_reaches (.seekEnd .refl), hc.trans h.contents_eq, rfl⟩

theorem Seekable.at {s t : σ} {file : ByteArray} (hs : Seekable s) (h : Visits s t)
    (hc : contents s = file) {n : Nat} (hn : n ≤ file.size) :
    ∃ u, Source.seekStart t n = (.ok (), u) ∧ At u file n := by
  rw [← hc, ← h.contents_eq] at hn
  obtain ⟨hok, hfree⟩ := hs t h n hn
  exact ⟨(Source.seekStart t n).2, Prod.ext hok rfl, hfree,
    (h.seekStart n).contents_eq.trans hc, position_seekStart t n hok⟩

/-- What `readOn` answers when the bytes in `got` are the last before the position. -/
theorem readOn_at {s : σ} {file : ByteArray} {i n : Nat} (got : ByteArray)
    (h : At s file (i + got.size)) (hgot : got = file.extract i (i + got.size))
    (hle : got.size ≤ n) :
    (i + n ≤ file.size → ∃ t, readOn s n got = (.ok (file.extract i (i + n)), t) ∧
      At t file (i + n)) ∧
    (file.size < i + n → got.size < n →
      ∃ t j, readOn s n got = (.error .unexpectedEof, t) ∧ At t file j) := by
  fun_induction readOn s n got with
  | case1 s got hn =>
    have he : got.size = n := by omega
    exact ⟨fun _ => ⟨s, by rw [← he, ← hgot], he ▸ h⟩, fun _ hlt => absurd hlt (by omega)⟩
  | case2 s got hn b t hr hb =>
    obtain ⟨ht, -, hend⟩ := h.of_read_bytes hr
    have := hend hb (by omega)
    exact ⟨fun hle => absurd hle (by omega), fun _ _ => ⟨t, _, rfl, ht⟩⟩
  | case3 s got hn b t hr hb ih =>
    obtain ⟨ht, hbe, -⟩ := h.of_read_bytes hr
    have hsize := size_le s (n - got.size) b (by rw [hr])
    have hcat : got ++ b = file.extract i (i + (got ++ b).size) := by
      conv => lhs; rw [hgot, hbe]
      rw [ByteArray.size_append, ← Nat.add_assoc,
        ← ByteArray.extract_eq_extract_append_extract (i + got.size) (by omega) (by omega)]
    have hs : (got ++ b).size = got.size + b.size := ByteArray.size_append
    have next := ih (by rwa [hs, ← Nat.add_assoc]) hcat (by omega)
    refine ⟨next.1, fun hlt hlt' => ?_⟩
    have hfile : (got ++ b).size ≤ file.size - i := by
      conv => lhs; rw [hcat, ByteArray.size_extract]
      omega
    exact next.2 hlt (by omega)
  | case4 s got hn t hr ih => exact ih (h.of_read_interrupted hr) hgot hle
  | case5 s got hn e t hr => exact absurd (by rw [hr]) ((h.faultFree s .refl).1 (n - got.size) e)

theorem readExact?_inside {s : σ} {file : ByteArray} {i n : Nat} (h : At s file i)
    (hn : i + n ≤ file.size) :
    ∃ t, readExact? s n = (.ok (some (file.extract i (i + n))), t) ∧ At t file (i + n) := by
  obtain ⟨t, ht, hat⟩ := (readOn_at .empty h (by simp) (Nat.zero_le n)).1 hn
  exact ⟨t, by rw [readExact?, readExact, ht], hat⟩

theorem readExact?_outside {s : σ} {file : ByteArray} {i n : Nat} (h : At s file i)
    (hpos : 0 < n) (hn : file.size < i + n) :
    ∃ t j, readExact? s n = (.ok none, t) ∧ At t file j := by
  obtain ⟨t, j, ht, hat⟩ := (readOn_at .empty h (by simp) (Nat.zero_le n)).2 hn hpos
  exact ⟨t, j, by rw [readExact?, readExact, ht], hat⟩

end Source

end TraceCapture
