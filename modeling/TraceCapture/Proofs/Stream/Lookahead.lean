import TraceCapture.Stream.Lookahead
import TraceCapture.Stream.Memory

set_option autoImplicit false

namespace TraceCapture

variable {σ : Type} [Source σ]

/-- The bytes of a source as a cursor reads them: of all reads up to the one that delivers nothing
or fails. -/
inductive Source.Gives : σ → List UInt8 → Prop where
  | ends {s t : σ} {b : ByteArray} (h : read s Lookahead.readAhead = (.bytes b, t))
      (h0 : b.size = 0) : Gives s []
  | fails {s t : σ} {e : IoError} (h : read s Lookahead.readAhead = (.failed e, t)) : Gives s []
  | again {s t : σ} {text : List UInt8} (h : read s Lookahead.readAhead = (.interrupted, t))
      (rest : Gives t text) : Gives s text
  | piece {s t : σ} {b : ByteArray} {text : List UInt8}
      (h : read s Lookahead.readAhead = (.bytes b, t)) (h0 : b.size ≠ 0) (rest : Gives t text) :
      Gives s (b.data.toList ++ text)

theorem Source.exists_gives (s : σ) : ∃ text, Gives s text := by
  cases h : read s Lookahead.readAhead with
  | mk reply t =>
    cases reply with
    | failed e => exact ⟨[], .fails h⟩
    | interrupted =>
      have hless : patience t < patience s := by
        have := patience_lt s Lookahead.readAhead (by rw [h])
        rwa [h] at this
      have hle : remaining t ≤ remaining s := by
        have := remaining_le s Lookahead.readAhead
        rwa [h] at this
      obtain ⟨text, hrest⟩ := exists_gives t
      exact ⟨text, .again h hrest⟩
    | bytes b =>
      by_cases h0 : b.size = 0
      · exact ⟨[], .ends h h0⟩
      · have hless : remaining t < remaining s := by
          have := remaining_read s Lookahead.readAhead b (by rw [h])
          rw [h] at this
          dsimp only at this
          omega
        obtain ⟨text, hrest⟩ := exists_gives t
        exact ⟨_, .piece h h0 hrest⟩
termination_by (remaining s, patience s)
decreasing_by
  all_goals simp only [Prod.lex_def]; omega

namespace Lookahead

inductive Shows : Lookahead σ → List UInt8 → Prop where
  | nil {l : Lookahead σ} (h : l.peek = none) : Shows l []
  | cons {l : Lookahead σ} {b : UInt8} {bytes : List UInt8} (h : l.peek = some b)
      (rest : Shows l.bump bytes) : Shows l (b :: bytes)

variable {l : Lookahead σ} {bytes text : List UInt8}

theorem Shows.peek_eq (h : Shows l bytes) : l.peek = bytes.head? := by
  cases h with
  | nil h => exact h
  | cons h => exact h

theorem Shows.bump {b : UInt8} (h : Shows l (b :: bytes)) : Shows l.bump bytes := by
  cases h with
  | cons _ rest => exact rest

theorem Shows.unique {bytes' : List UInt8} (h : Shows l bytes) (h' : Shows l bytes') :
    bytes = bytes' := by
  induction h generalizing bytes' with
  | nil hnone =>
    cases h' with
    | nil => rfl
    | cons hsome =>
      rw [hnone] at hsome
      cases hsome
  | cons hsome _ ih =>
    cases h' with
    | nil hnone =>
      rw [hsome] at hnone
      cases hnone
    | cons hsome' rest =>
      rw [hsome] at hsome'
      cases hsome'
      rw [ih rest]

theorem fill_eq (s : σ) :
    fill s = match Source.read s readAhead with
      | (.bytes b, t) => ⟨t, b, 0⟩
      | (.interrupted, t) => fill t
      | (.failed _, t) => ⟨t, .empty, 0⟩ := by
  rw [fill]
  split <;> next h => rw [h]

theorem shows_inside {t : σ} {b : ByteArray} {i : Nat} (hi : i < b.size)
    (h : Shows (fill t) text) : Shows ⟨t, b, i⟩ (b.data.toList.drop i ++ text) := by
  have hdrop : b.data.toList.drop i = b[i] :: b.data.toList.drop (i + 1) :=
    List.drop_eq_getElem_cons hi
  have hpeek : (⟨t, b, i⟩ : Lookahead σ).peek = some b[i] := dif_pos hi
  rw [hdrop, List.cons_append]
  refine .cons hpeek ?_
  unfold Lookahead.bump
  split
  · next hnext => exact shows_inside hnext h
  · next hlast =>
    have hnone : b.data.toList.drop (i + 1) = [] := List.drop_eq_nil_of_le (Nat.le_of_not_lt hlast)
    rw [hnone]
    exact h
termination_by b.size - i

/-- What a source gives is what the cursor at its start shows. -/
theorem shows_fill {s : σ} (h : Source.Gives s text) : Shows (fill s) text := by
  induction h with
  | ends h h0 =>
    rw [fill_eq, h]
    exact .nil (dif_neg (by simp only; omega))
  | fails h =>
    rw [fill_eq, h]
    exact .nil rfl
  | again h _ ih =>
    rw [fill_eq, h]
    exact ih
  | piece h h0 _ ih =>
    rw [fill_eq, h]
    exact shows_inside (Nat.pos_of_ne_zero h0) ih

theorem exists_shows (l : Lookahead σ) : ∃ bytes, Shows l bytes := by
  by_cases hi : l.position < l.buffer.size
  · obtain ⟨text, htext⟩ := Source.exists_gives l.source
    exact ⟨_, shows_inside hi (shows_fill htext)⟩
  · exact ⟨[], .nil (dif_neg hi)⟩

end Lookahead

namespace MemorySource

end MemorySource

end TraceCapture
