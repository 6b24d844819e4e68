import TraceCapture.Proofs.Block.Lz4.Lawful
import TraceCapture.Proofs.Reader.Bounds

set_option autoImplicit false

namespace TraceCapture

namespace Reader

variable {σ : Type}

theorem percentRead_le_of_position_le {r r' : Reader σ} (hlength : r'.fileLength = r.fileLength)
    (hle : r.position ≤ r'.position) : r.percentRead ≤ r'.percentRead := by
  have hsat : Word.satMul r.position 100 ≤ Word.satMul r'.position 100 := by
    unfold Word.satMul
    omega
  have hdiv := Nat.div_le_div_right (c := r.fileLength) hsat
  unfold percentRead
  rw [hlength]
  split <;> omega

/-- At the end of the file all of it counts, unless a hundred times its length is cut short. -/
theorem percentRead_of_position_eq {r : Reader σ} (h : r.position = r.fileLength) :
    r.percentRead = if r.fileLength * 100 < Word.size then 100 else Word.max / r.fileLength := by
  have hmax : Word.max + 1 = Word.size := rfl
  unfold percentRead
  rw [h]
  by_cases h0 : r.fileLength = 0
  · rw [if_pos h0, h0, if_pos (by decide)]
  rw [if_neg h0]
  by_cases hfits : r.fileLength * 100 < Word.size
  · have hsat : Word.satMul r.fileLength 100 = r.fileLength * 100 := Nat.min_eq_left (by omega)
    rw [if_pos hfits, hsat, Nat.mul_div_cancel_left 100 (Nat.pos_of_ne_zero h0), Nat.min_self]
  · have hsat : Word.satMul r.fileLength 100 = Word.max := Nat.min_eq_right (by omega)
    have hlt : Word.max / r.fileLength < 100 := Nat.div_lt_of_lt_mul (by omega)
    rw [if_neg hfits, hsat, Nat.min_eq_right (Nat.le_of_lt hlt)]

theorem percentRead_le_of_position_eq {r r' : Reader σ} (hlength : r'.fileLength = r.fileLength)
    (hend : r'.position = r.fileLength) : r.percentRead ≤ r'.percentRead := by
  rw [percentRead_of_position_eq (hend.trans hlength.symm), hlength]
  split
  · exact r.percentRead_le
  · next hlong =>
    have hsat : Word.satMul r.position 100 / r.fileLength ≤ Word.max / r.fileLength :=
      Nat.div_le_div_right (Nat.min_le_right _ _)
    unfold percentRead
    rw [if_neg (fun h0 => hlong (by rw [h0]; decide))]
    omega

section

variable [Source σ]

/-- Where a load leaves a reader: further on by no more than the source gave, or at the length of
its file, at the end of the stream. -/
inductive Advances (r : Reader σ) : Reader σ → Prop where
  | on {r' : Reader σ} (hlength : r'.fileLength = r.fileLength)
      (hlive : r'.exhausted = r.exhausted) (hle : r.position ≤ r'.position)
      (hroom : r'.position + Source.remaining r'.inner ≤
        r.position + Source.remaining r.inner) : Advances r r'
  | ends {r' : Reader σ} (hlength : r'.fileLength = r.fileLength) (hend : r'.exhausted = true)
      (hposition : r'.position = r.fileLength) : Advances r r'

theorem Advances.length_eq {r r' : Reader σ} (h : Advances r r') :
    r'.fileLength = r.fileLength := by
  cases h <;> assumption

theorem Advances.percentRead_le {r r' : Reader σ} (h : Advances r r') :
    r.percentRead ≤ r'.percentRead := by
  cases h with
  | on hlength hlive hle => exact percentRead_le_of_position_le hlength hle
  | ends hlength hend hposition => exact percentRead_le_of_position_eq hlength hposition

theorem Advances.cacheBlock {r r' : Reader σ} (h : Advances r r') (block : ByteArray)
    (size skip : Nat) : Advances r (r'.cacheBlock block size skip).2 := by
  unfold Reader.cacheBlock
  split <;> cases h with
  | on hlength hlive hle hroom => exact .on hlength hlive hle hroom
  | ends hlength hend hposition => exact .ends hlength hend hposition

/-- A block takes its entry's bytes from what the source may still deliver. -/
theorem remaining_fetched {r : Reader σ} {length : Nat} {block : ByteArray}
    (h : r.fetched.1 = .block length block) :
    Source.remaining r.fetched.2 + length + lengthSize ≤ Source.remaining r.inner := by
  obtain ⟨b, inner, hfront, -, -, hblock⟩ := Source.of_fetch (Prod.ext h rfl) rfl
  have hroom := Source.readExact?_remaining hfront
  have hbehind := Source.readExact?_remaining (Source.of_fetchBlock hblock).2
  change Source.remaining r.fetched.2 + length ≤ _ at hbehind
  omega

theorem advances_loadChunk (r : Reader σ) (skip : Nat) : Advances r (r.loadChunk skip).2 := by
  have hroom : Source.remaining r.fetched.2 ≤ Source.remaining r.inner :=
    Source.fetch_keeps (P := fun s => Source.remaining s ≤ Source.remaining r.inner)
      (fun s n hs => Nat.le_trans (Source.readExact?_remaining_le (Prod.eta _).symm) hs)
      (Nat.le_refl _) _
  rw [loadChunk_eq]
  unfold settle
  dsimp only
  split
  · exact .on rfl rfl (Nat.le_refl _) (Nat.add_le_add_left hroom _)
  · exact .ends rfl rfl rfl
  · exact .ends rfl rfl rfl
  · next length block hblock =>
    have hbehind := remaining_fetched hblock
    have hnext : ∀ r' : Reader σ, r'.fileLength = r.fileLength → r'.exhausted = r.exhausted →
        r'.inner = r.fetched.2 → r'.position = r.position + lengthSize + length →
        Advances r r' := by
      intro r' hlength hlive hinner hposition
      refine .on hlength hlive (by omega) ?_
      rw [hinner, hposition]
      omega
    split
    · exact hnext _ rfl rfl rfl rfl
    · apply Advances.cacheBlock
      exact hnext _ rfl rfl rfl rfl

theorem kept_percentRead (percent : Nat) : Kept fun r : Reader σ => percent ≤ r.percentRead :=
  ⟨fun h _ skip => Nat.le_trans h (advances_loadChunk _ skip).percentRead_le, fun h _ => h⟩

structure EndsAt (length : Nat) (r : Reader σ) : Prop where
  length_eq : r.fileLength = length
  position_eq : r.exhausted = true → r.position = length

theorem EndsAt.loadChunk {length : Nat} {r : Reader σ} (h : EndsAt length r)
    (hr : r.exhausted = false) (skip : Nat) : EndsAt length (r.loadChunk skip).2 := by
  have hadvances := advances_loadChunk r skip
  refine ⟨hadvances.length_eq.trans h.length_eq, fun hend => ?_⟩
  cases hadvances with
  | on _ hlive =>
    rw [hlive, hr] at hend
    cases hend
  | ends _ _ hposition => exact hposition.trans h.length_eq

theorem EndsAt.moves {length : Nat} {places : Nat → Prop} {first r : Reader σ}
    (h : EndsAt length first) (hm : Moves places first r) : EndsAt length r := by
  induction hm with
  | refl => exact h
  | load _ hr skip ih => exact ih.loadChunk hr skip
  | step _ _ ih | refused _ _ ih | place _ _ ih => exact ⟨ih.length_eq, ih.position_eq⟩
  | seek _ _ _ ih => exact ⟨ih.length_eq, nofun⟩

structure Inside (length room : Nat) (r : Reader σ) : Prop extends EndsAt length r where
  position_le : r.exhausted = false → r.position + Source.remaining r.inner ≤ room

theorem kept_inside (length room : Nat) : Kept (Inside (σ := σ) length room) where
  load {r} h hr skip :=
    { h.toEndsAt.loadChunk hr skip with
      position_le := fun hlive => by
        have hle := h.position_le hr
        cases advances_loadChunk r skip with
        | on _ _ _ hroom => exact Nat.le_trans hroom hle
        | ends _ hend =>
          rw [hend] at hlive
          cases hlive }
  step h _ := { h with }

theorem Inside.position_lt {length room : Nat} {r : Reader σ} (h : Inside length room r)
    (hlength : length < Word.size) (hroom : room < Word.size) : r.position < Word.size := by
  cases hr : r.exhausted with
  | true => exact h.position_eq hr ▸ hlength
  | false =>
    have hle := h.position_le hr
    omega

theorem Opening.inside {source : σ} {codec : Codec} {r : Reader σ} (h : Opening source codec r) :
    (Source.seekEnd source).1 = .ok r.fileLength ∧ Inside r.fileLength
      (Source.remaining (Source.seekStart (Source.seekEnd source).2 0).2) r := by
  obtain @⟨s, t, inner, length, b, hend, hstart, hmagic⟩ := h
  have hroom := Source.readExact?_remaining hmagic
  rw [hend, hstart]
  refine ⟨rfl, ⟨rfl, nofun⟩, fun _ => ?_⟩
  change magic.size + Source.remaining inner ≤ Source.remaining t
  omega

end

end Reader

open Reader (Opened ReaderCall)

/-- Reads and skips, failing or not, never lower the percentage that a reader tells, whatever its
source does and whatever length it claims to have. The places that the percentage is told by are
64-bit numbers if the length is one and the source has no more bytes than that. -/
theorem percent_never_goes_back {σ : Type} [Source σ] {source : σ} {codec : Codec}
    {first : Reader σ} (hlength : ∀ n, (Source.seekEnd source).1 = .ok n → n < Word.size)
    (hbytes : Source.remaining (Source.seekStart (Source.seekEnd source).2 0).2 < Word.size)
    (hstart : Reader.start source codec = .ok first) {calls more : List ReaderCall}
    (hcalls : ∀ call ∈ calls, call.Onward) (hmore : ∀ call ∈ more, call.Onward) :
    let before := first.performAll calls
    let after := before.performAll more
    after.position < Word.size ∧ before.percentRead ≤ after.percentRead ∧
      after.percentRead ≤ 100 := by
  intro before after
  obtain ⟨opening, hopening, hlive, hload⟩ := Reader.start_eq_ok hstart
  obtain ⟨htold, hinside⟩ := hopening.inside
  have hkept := Reader.kept_inside (σ := σ) opening.fileLength
    (Source.remaining (Source.seekStart (Source.seekEnd source).2 0).2)
  have hfirst := hkept.load hinside hlive 0
  rw [hload] at hfirst
  have hafter := hkept.performAll (hkept.performAll hfirst hcalls) hmore
  exact ⟨hafter.position_lt (hlength _ htold) hbytes,
    (Reader.kept_percentRead before.percentRead).performAll (Nat.le_refl _) hmore,
    after.percentRead_le⟩

/-- A source that delivers the file byte by byte, interrupted before each, and says that it has
forty bytes. The read fails at a length that no block has, the skip comes to the end of the file. -/
theorem percent_never_goes_back_past_bad_length :
    let source := MemorySource.new ⟨#[97, 116, 4, 0, 0, 0, 0, 0, 0, 0, 255, 255, 255, 255]⟩
      ⟨true, some 1, Word.max, none, some 40⟩
    ∃ r, Reader.start source (.lz4 .checked) = .ok r ∧ r.percentRead = 25 ∧
      let before := r.performAll [.read (.bytes 1)]
      let after := before.performAll [.skip 1]
      after.position < Word.size ∧ before.percentRead ≤ after.percentRead ∧
        after.percentRead ≤ 100 := by
  intro source
  have hsound : source.Sound := by
    refine .new (by decide) ⟨?_, rfl, rfl⟩
    rintro k ⟨⟩
    decide
  have hfile : source.data =
    magic ++ (Entry.written (Bytes.ofU32 0) ++ ⟨#[255, 255, 255, 255]⟩) := rfl
  obtain ⟨r, hstart, -, -, hposition, -, -⟩ :=
    Reader.start_first ⟨hsound.faultFree, rfl, rfl⟩ hfile (by decide) Lz4.encodes_empty
  have htold : r.fileLength = 40 := by
    obtain ⟨opening, hopening, -, hload⟩ := Reader.start_eq_ok hstart
    have hsame := (Reader.advances_loadChunk opening 0).length_eq
    rw [hload] at hsame
    exact hsame.trans (Except.ok.inj hopening.inside.1).symm
  have hpercent : r.percentRead = 25 := by
    rw [Reader.percentRead, hposition, htold]
    rfl
  have hlength : ∀ n, (Source.seekEnd source).1 = .ok n → n < Word.size := by
    intro n hn
    cases hn
    decide
  have honward : ∀ call : ReaderCall, call.Onward → ∀ c ∈ [call], c.Onward :=
    fun call hcall c hc => List.mem_singleton.mp hc ▸ hcall
  exact ⟨r, hstart, hpercent, percent_never_goes_back hlength (by decide) hstart
    (honward (.read (.bytes 1)) trivial) (honward (.skip 1) trivial)⟩

/-- At the end of the stream, wherever reads, skips and seeks have led, the percentage is a hundred
exactly if a hundred times the length that the source told is a 64-bit number. -/
theorem percent_at_end {σ : Type} [Source σ] {source : σ} {codec : Codec} {r : Reader σ}
    (h : Opened source codec r) (hend : r.endOfData = true) :
    ∃ length, (Source.seekEnd source).1 = .ok length ∧
      (r.percentRead = 100 ↔ length * 100 < Word.size) ∧
      (Word.size ≤ length * 100 → r.percentRead = Word.max / length) := by
  obtain ⟨first, hfirst, hmoves⟩ := h.moves
  obtain ⟨htold, hinside⟩ := hfirst.inside
  have hat := hinside.toEndsAt.moves hmoves
  simp only [Reader.endOfData, Bool.and_eq_true] at hend
  have hpercent := Reader.percentRead_of_position_eq
    ((hat.position_eq hend.1).trans hat.length_eq.symm)
  rw [hat.length_eq] at hpercent
  refine ⟨first.fileLength, htold, ?_, fun hlong => ?_⟩
  · rw [hpercent]
    split
    · next hfits => exact iff_of_true rfl hfits
    · next hlong =>
      refine iff_of_false (Nat.ne_of_lt (Nat.div_lt_of_lt_mul ?_)) hlong
      have hmax : Word.max + 1 = Word.size := rfl
      omega
  · rw [hpercent, if_neg (Nat.not_lt_of_le hlong)]

def longLength : SourceFaults := ⟨false, none, Word.max, some 3, some 184467440737095517⟩

theorem start_longLength :
    Reader.start (MemorySource.new magic longLength) (.lz4 .checked) =
      .ok { Reader.fresh ⟨magic, 2, 2, false, longLength⟩ (.lz4 .checked) 184467440737095517 with
        position := 184467440737095517, exhausted := true } := by
  have hmagic : Source.readExact? (⟨magic, 0, 2, false, longLength⟩ : MemorySource) magic.size =
      (.ok (some magic), ⟨magic, 2, 2, false, longLength⟩) :=
    Source.readExact?_of_readFor (k := 2) rfl
  have hnone : Source.readExact? (⟨magic, 2, 2, false, longLength⟩ : MemorySource) lengthSize =
      (.ok none, ⟨magic, 2, 2, false, longLength⟩) :=
    Source.readExact?_of_readFor_end (k := 2) rfl
  exact Reader.start_of_fetched rfl rfl hmagic (Source.fetch_of_end hnone) rfl

/-- A length whose hundredfold is cut short; its stream has ended, and a refused seek changes
nothing of that. -/
theorem percent_at_end_behind_refused_seek :
    let faults : SourceFaults := ⟨false, none, Word.max, some 3, some 184467440737095517⟩
    ∃ r, Reader.start (MemorySource.new magic faults) (.lz4 .checked) = .ok r ∧
      (r.setCurrentOffset ⟨2, 0⟩).1 = .error (.io (.other "seek refused")) ∧
      (r.setCurrentOffset ⟨2, 0⟩).2.endOfData = true ∧
      (r.setCurrentOffset ⟨2, 0⟩).2.percentRead = 99 := by
  have hstart := start_longLength
  obtain ⟨length, htold, -, hlong⟩ :=
    percent_at_end (.call (.seek ⟨2, 0⟩) (.start hstart)) rfl
  cases htold
  exact ⟨_, hstart, rfl, rfl, (hlong (by decide)).trans (by decide)⟩

def longestLength : SourceFaults := ⟨false, none, Word.max, none, some 9223372036854775807⟩

theorem percent_falls_short_at_end :
    ∃ r, Reader.start (MemorySource.new magic
        ⟨false, none, Word.max, none, some 9223372036854775807⟩) (.lz4 .checked) = .ok r ∧
      r.endOfData = true ∧ r.percentRead = 2 := by
  have hmagic : Source.readExact? (⟨magic, 0, 2, false, longestLength⟩ : MemorySource) magic.size =
      (.ok (some magic), ⟨magic, 2, 2, false, longestLength⟩) :=
    Source.readExact?_of_readFor (k := 2) rfl
  have hnone : Source.readExact? (⟨magic, 2, 2, false, longestLength⟩ : MemorySource) lengthSize =
      (.ok none, ⟨magic, 2, 2, false, longestLength⟩) :=
    Source.readExact?_of_readFor_end (k := 2) rfl
  exact ⟨_, Reader.start_of_fetched rfl rfl hmagic (Source.fetch_of_end hnone) rfl, rfl, by decide⟩

end TraceCapture
