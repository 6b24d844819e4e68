import TraceCapture.Proofs.Stream.Memory

set_option autoImplicit false

namespace TraceCapture

namespace Source

variable {σ : Type}

/-- Sources that are related answer alike, and are related behind the answer if there is more. -/
def KeptByReads [Source σ] (R : σ → σ → Prop) : Prop :=
  ∀ s t, R s t → ∀ n, (readExact? s n).1 = (readExact? t n).1 ∧
    ((readExact? s n).1 = .ok none ∨ R (readExact? s n).2 (readExact? t n).2)

def ReadsAlike [Source σ] (s t : σ) : Prop := ∃ R : σ → σ → Prop, KeptByReads R ∧ R s t

theorem ReadsAlike.readExact? [Source σ] {s t : σ} (h : ReadsAlike s t) (n : Nat) :
    ∃ answer s' t', Source.readExact? s n = (answer, s') ∧ Source.readExact? t n = (answer, t') ∧
      (answer = .ok none ∨ ReadsAlike s' t') := by
  obtain ⟨R, hR, hst⟩ := h
  obtain ⟨hanswer, hnext⟩ := hR s t hst n
  exact ⟨(Source.readExact? s n).1, (Source.readExact? s n).2, (Source.readExact? t n).2, rfl,
    Prod.ext hanswer.symm rfl, hnext.imp_right fun hrelated => ⟨R, hR, hrelated⟩⟩

theorem readExact?_eq [Source σ] (s : σ) (n : Nat) :
    readExact? s n =
      (match (readExact s n).1 with
        | .ok b => .ok (some b)
        | .error .unexpectedEof => .ok none
        | .error e => .error e, (readExact s n).2) := by
  unfold readExact?
  split <;> simp_all

theorem keptByReads_of_read [Source σ] {R : σ → σ → Prop}
    (hR : ∀ s t, R s t → ∀ n, (read s n).1 = (read t n).1 ∧ R (read s n).2 (read t n).2) :
    KeptByReads R := by
  have hread : ∀ {s t s' : σ} {n : Nat} {reply : SourceReply}, R s t →
      read s n = (reply, s') → ∃ t', read t n = (reply, t') ∧ R s' t' := by
    intro s t s' n reply hst hs
    obtain ⟨hreply, hnext⟩ := hR s t hst n
    rw [hs] at hreply hnext
    exact ⟨(read t n).2, Prod.ext hreply.symm rfl, hnext⟩
  have hreadOn : ∀ s t, R s t → ∀ n got, (readOn s n got).1 = (readOn t n got).1 ∧
      R (readOn s n got).2 (readOn t n got).2 := by
    intro s t hst n got
    fun_induction readOn s n got generalizing t with
    | case1 s got hn =>
      rw [readOn_eq, if_pos hn]
      exact ⟨rfl, hst⟩
    | case2 s got hn b s' hs hb =>
      obtain ⟨t', ht, hnext⟩ := hread hst hs
      rw [readOn_eq, if_neg hn, ht]
      dsimp only
      rw [if_pos hb]
      exact ⟨rfl, hnext⟩
    | case3 s got hn b s' hs hb ih =>
      obtain ⟨t', ht, hnext⟩ := hread hst hs
      rw [readOn_eq t, if_neg hn, ht]
      dsimp only
      rw [if_neg hb]
      exact ih t' hnext
    | case4 s got hn s' hs ih =>
      obtain ⟨t', ht, hnext⟩ := hread hst hs
      rw [readOn_eq t, if_neg hn, ht]
      exact ih t' hnext
    | case5 s got hn e s' hs =>
      obtain ⟨t', ht, hnext⟩ := hread hst hs
      rw [readOn_eq, if_neg hn, ht]
      exact ⟨rfl, hnext⟩
  intro s t hst n
  obtain ⟨hanswer, hnext⟩ := hreadOn s t hst n .empty
  rw [readExact?_eq, readExact?_eq, readExact, readExact, hanswer]
  exact ⟨rfl, .inr hnext⟩

theorem readExact?_zero [Source σ] (s : σ) : readExact? s 0 = (.ok (some .empty), s) := by
  rw [readExact?, readExact, readOn]
  rfl

/-- Sources without faults read alike at the same place of the same file, however they cut their
reads. -/
theorem At.readsAlike [LawfulSource σ] {s t : σ} {file : ByteArray} {i : Nat} (hs : At s file i)
    (ht : At t file i) : ReadsAlike s t := by
  refine ⟨fun s t => ∃ i, At s file i ∧ At t file i, ?_, i, hs, ht⟩
  rintro s t ⟨i, hs, ht⟩ n
  rcases Nat.lt_or_ge file.size (i + n) with hout | hin
  · rcases Nat.eq_zero_or_pos n with rfl | hpos
    · rw [readExact?_zero, readExact?_zero]
      exact ⟨rfl, .inr ⟨i, hs, ht⟩⟩
    · obtain ⟨s', -, hs', -⟩ := readExact?_outside hs hpos hout
      obtain ⟨t', -, ht', -⟩ := readExact?_outside ht hpos hout
      rw [hs', ht']
      exact ⟨rfl, .inl rfl⟩
  · obtain ⟨s', hs', hsat⟩ := readExact?_inside hs hin
    obtain ⟨t', ht', htat⟩ := readExact?_inside ht hin
    rw [hs', ht']
    exact ⟨rfl, .inr ⟨i + n, hsat, htat⟩⟩

end Source

namespace MemorySource

/-- Reads do not depend on how often a source was sent somewhere, and a seek that it refuses does
nothing else. -/
theorem readsAlike_of_refused {s t : MemorySource} {n : Nat} {e : IoError}
    (h : Source.seekStart s n = (.error e, t)) : Source.ReadsAlike s t := by
  refine ⟨fun s t => ∃ seeks, t = { s with seeks }, Source.keptByReads_of_read ?_, _,
    of_seek_error h⟩
  rintro s _ ⟨seeks, rfl⟩ k
  change (s.read k).1 = (read { s with seeks } k).1 ∧
    ∃ seeks', (read { s with seeks } k).2 = { (s.read k).2 with seeks := seeks' }
  unfold read
  dsimp only
  split
  · exact ⟨rfl, seeks, rfl⟩
  · split <;> exact ⟨rfl, seeks, rfl⟩

end MemorySource

end TraceCapture
