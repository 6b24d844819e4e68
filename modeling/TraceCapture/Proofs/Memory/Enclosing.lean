import Mathlib.Data.List.Chain
import Mathlib.Data.List.TakeWhile
import TraceCapture.Memory.Enclosing
import TraceCapture.Proofs.Memory.Listing
import TraceCapture.Stream.Memory

set_option autoImplicit false

namespace TraceCapture

namespace Region

variable {r whole : Region} {following : List Region} {a : Nat}

theorem continuesWith_iff {next : Region} : r.continuesWith next = true ↔
    next.isReadable = true ∧ next.isExecutable = false ∧ next.start = r.stop := by
  simp [continuesWith, and_assoc]

/-- `whole` goes from the start of `r` to the stop of the last of some regions that follow it
without a gap, all readable and none executable. The region behind them does not go on. -/
def Merged (r : Region) (following : List Region) (whole : Region) : Prop :=
  ∃ absorbed rest, following = absorbed ++ rest ∧
    whole = { r with stop := (absorbed.getLastD r).stop } ∧
    List.IsChain (fun q next => next.start = q.stop) (r :: absorbed) ∧
    (∀ q ∈ absorbed, q.isReadable = true ∧ q.isExecutable = false) ∧
    ∀ next, rest.head? = some next →
      next.isReadable = false ∨ next.isExecutable = true ∨ next.start ≠ whole.stop

theorem merged_absorb (r : Region) (following : List Region) :
    r.Merged following (r.absorb following) := by
  induction following generalizing r with
  | nil => exact ⟨[], [], rfl, rfl, .singleton r, nofun, nofun⟩
  | cons next following ih =>
    unfold absorb
    split
    · next hon =>
      obtain ⟨hread, hexec, hgap⟩ := continuesWith_iff.mp hon
      obtain ⟨absorbed, rest, hsplit, hwhole, hchain, hall, hend⟩ := ih { r with stop := next.stop }
      have hlast : (absorbed.getLastD { r with stop := next.stop }).stop =
          (absorbed.getLastD next).stop := by
        cases absorbed <;> rfl
      refine ⟨next :: absorbed, rest, congrArg _ hsplit, ?_, ?_, ?_, hend⟩
      · rw [hwhole, hlast, List.getLastD_cons]
      · rw [List.isChain_cons] at hchain
        exact List.isChain_cons_cons.mpr ⟨hgap, List.isChain_cons.mpr hchain⟩
      · intro q hq
        obtain rfl | hq := List.mem_cons.mp hq
        · exact ⟨hread, hexec⟩
        · exact hall q hq
    · next hoff =>
      refine ⟨[], next :: following, rfl, rfl, .singleton r, nofun, ?_⟩
      rintro q ⟨⟩
      rw [continuesWith_iff] at hoff
      by_cases hread : next.isReadable = true
      · by_cases hexec : next.isExecutable = true
        · exact .inr (.inl hexec)
        · exact .inr (.inr fun hgap => hoff ⟨hread, by simpa using hexec, hgap⟩)
      · exact .inl (by simpa using hread)

theorem exists_mem_of_isChain {absorbed : List Region}
    (hchain : List.IsChain (fun q next => next.start = q.stop) (r :: absorbed))
    (hstart : r.start ≤ a) (hstop : a < (absorbed.getLastD r).stop) :
    ∃ q ∈ r :: absorbed, q.contains a = true := by
  induction absorbed generalizing r with
  | nil => exact ⟨r, List.mem_cons_self, contains_iff.mpr ⟨hstart, hstop⟩⟩
  | cons next absorbed ih =>
    obtain ⟨hgap, hchain⟩ := List.isChain_cons_cons.mp hchain
    rcases Nat.lt_or_ge a r.stop with hin | hout
    · exact ⟨r, List.mem_cons_self, contains_iff.mpr ⟨hstart, hin⟩⟩
    · rw [List.getLastD_cons] at hstop
      obtain ⟨q, hq, hqa⟩ := ih hchain (by omega) hstop
      exact ⟨q, List.mem_cons_of_mem _ hq, hqa⟩

theorem stop_le_of_isChain {absorbed : List Region}
    (hchain : List.IsChain (fun q next => next.start = q.stop) (r :: absorbed))
    (hlines : ∀ q ∈ absorbed, q.start < q.stop) : r.stop ≤ (absorbed.getLastD r).stop := by
  induction absorbed generalizing r with
  | nil => exact Nat.le_refl _
  | cons next absorbed ih =>
    obtain ⟨hgap, hchain⟩ := List.isChain_cons_cons.mp hchain
    have hnext := hlines next List.mem_cons_self
    have hrest := ih hchain fun q hq => hlines q (List.mem_cons_of_mem _ hq)
    rw [List.getLastD_cons]
    omega

theorem Merged.contains (h : r.Merged following whole)
    (hlines : ∀ q ∈ following, q.start < q.stop) (ha : r.contains a = true) :
    whole.contains a = true := by
  obtain ⟨absorbed, rest, rfl, rfl, hchain, -⟩ := h
  have hle := stop_le_of_isChain hchain fun q hq => hlines q (List.mem_append_left _ hq)
  rw [contains_iff] at ha ⊢
  exact ⟨ha.1, Nat.lt_of_lt_of_le ha.2 hle⟩

theorem Merged.readable (h : r.Merged following whole) (hr : r.isReadable = true)
    (ha : whole.contains a = true) :
    ∃ q ∈ r :: following, q.contains a = true ∧ q.isReadable = true := by
  obtain ⟨absorbed, rest, rfl, rfl, hchain, hall, -⟩ := h
  obtain ⟨hstart, hstop⟩ := contains_iff.mp ha
  obtain ⟨q, hq, hqa⟩ := exists_mem_of_isChain hchain hstart hstop
  rw [← List.cons_append]
  refine ⟨q, List.mem_append_left _ hq, hqa, ?_⟩
  obtain rfl | hq := List.mem_cons.mp hq
  · exact hr
  · exact (hall q hq).1

theorem endsAtBreak_ok {p : Profile} {pageSize : Nat} (h : 1 ≤ pageSize) (r : Region)
    (programBreak : Nat) : ∃ heap, r.endsAtBreak p programBreak pageSize = .ok heap := by
  cases p with
  | checked => simp [endsAtBreak, Word.sub, h, Except.map]
  | unchecked => simp [endsAtBreak, Word.sub, Except.map]

end Region

structure Region.PartAround (heap : Region) (address : Nat) (part : Region) : Prop where
  contains_eq : part.contains address = true
  start_le : heap.start ≤ part.start
  stop_le : part.stop ≤ heap.stop
  protection_eq : part.protection = heap.protection

theorem Region.PartAround.subset {heap part : Region} {address a : Nat}
    (h : heap.PartAround address part) (ha : part.contains a = true) : heap.contains a = true := by
  have hstart := h.start_le
  have hstop := h.stop_le
  rw [contains_iff] at ha ⊢
  omega

namespace PinnedBlocks

variable {α : Type} {c : PinnedBlocks α} {heap : Region} {address index : Nat}

theorem blockEnd_le (block : Nat) : blockEnd block ≤ block + blockSize := Nat.min_le_left _ _

theorem blockEnd_of_le {block : Nat} (h : blockEnd block ≤ address) (ha : address < Word.max) :
    blockEnd block = block + blockSize := by
  unfold blockEnd Word.satAdd at *
  omega

theorem lt_blockEnd {block : Nat} (h : address < block) (ha : address < Word.max) :
    address < blockEnd block := by
  unfold blockEnd Word.satAdd
  omega

/-- The stretch that ends at a block above the address, or is that block, if the block before it
ends below the address. No sum of an address and the size of a block is out of range then. -/
theorem partAround_stretch (hheap : heap.contains address = true) (hmax : address < Word.max)
    (habove : address < blockEnd (c.blocks.getD index 0))
    (hbelow : index ≠ 0 → blockEnd (c.blocks.getD (index - 1) 0) ≤ address) :
    heap.PartAround address (c.stretch heap address index) := by
  obtain ⟨hstart, hstop⟩ := Region.contains_iff.mp hheap
  unfold stretch
  dsimp only
  split
  · next hinside =>
    refine ⟨Region.contains_iff.mpr ⟨?_, ?_⟩, Nat.le_max_right _ _, Nat.min_le_right _ _, rfl⟩
    · exact Nat.max_le.mpr ⟨hinside, hstart⟩
    · exact Nat.lt_min.mpr ⟨habove, hstop⟩
  · next hbefore =>
    have hblock : address < min (c.blocks.getD index 0) heap.stop :=
      Nat.lt_min.mpr ⟨Nat.lt_of_not_le hbefore, hstop⟩
    split
    · refine ⟨Region.contains_iff.mpr ⟨?_, hblock⟩, Nat.le_max_right _ _, Nat.min_le_right _ _, rfl⟩
      exact Nat.max_le.mpr ⟨hstart, hstart⟩
    · next hindex =>
      have hfloor := hbelow hindex
      rw [blockEnd_of_le hfloor hmax] at hfloor
      refine ⟨Region.contains_iff.mpr ⟨?_, hblock⟩, Nat.le_max_right _ _, Nat.min_le_right _ _, rfl⟩
      exact Nat.max_le.mpr ⟨hfloor, hstart⟩

variable [BlockAllocator α]

theorem lt_of_search {n : Nat} {a : α} {rejected : Array Nat} {block : Nat}
    (h : (search address n a rejected).1 = some block) : address < block := by
  fun_induction search address n a rejected with
  | case1 | case2 => cases h
  | case3 n a rejected block' a' halloc hfound =>
    cases h
    exact hfound.1
  | case4 n a rejected block' a' halloc hfound ih => exact ih h

theorem blocks_extend {c' : PinnedBlocks α} (h : c.extend heap address = (true, c')) :
    ∃ block, c'.blocks = c.blocks.push block ∧ address < block := by
  unfold extend at h
  rcases hsearch : search address (attempts heap) c.allocator #[] with ⟨found, rejected, a⟩
  rw [hsearch] at h
  cases found with
  | none => cases h
  | some block =>
    cases h
    exact ⟨block, rfl, lt_of_search (congrArg Prod.fst hsearch)⟩

theorem pin_ok {p : Profile} (hheap : heap.contains address = true) (hmax : address < Word.max) :
    ∃ found c', c.pin p heap address = (.ok found, c') ∧
      ∀ part, found = some part → heap.PartAround address part := by
  unfold pin
  rw [if_neg (by simp [hheap])]
  cases hfind : c.find? address with
  | some index =>
    refine ⟨_, c, rfl, ?_⟩
    rintro part ⟨⟩
    obtain ⟨hlt, habove, hfirst⟩ := Array.findIdx?_eq_some_iff_getElem.mp hfind
    refine partAround_stretch hheap hmax ?_ ?_
    · simpa [hlt] using habove
    · intro hindex
      have hprev := hfirst (index - 1) (by omega)
      have hin : index - 1 < c.blocks.size := by omega
      simpa [hin] using hprev
  | none =>
    have hall := Array.findIdx?_eq_none_iff.mp hfind
    rcases hextend : c.extend heap address with ⟨pinned, c'⟩
    dsimp only
    cases pinned with
    | false => exact ⟨none, c', rfl, nofun⟩
    | true =>
      refine ⟨_, c', rfl, ?_⟩
      rintro part ⟨⟩
      obtain ⟨block, hblocks, habove⟩ := blocks_extend hextend
      refine partAround_stretch hheap hmax ?_ ?_
      · rw [hblocks]
        simpa using lt_blockEnd habove hmax
      · rw [hblocks, Array.size_push, Nat.add_sub_cancel]
        intro hindex
        have hin : c.blocks.size - 1 < c.blocks.size := by omega
        rw [Array.getD_eq_getD_getElem?, Array.getElem?_push_lt hin, Option.getD_some]
        exact Nat.le_of_not_lt (of_decide_eq_false (hall _ (Array.getElem_mem hin)))

theorem find?_eq_some_of_dropWhile {regions following : List Region} {r : Region} {address : Nat}
    (h : regions.dropWhile (fun q => !q.contains address) = r :: following) :
    regions.find? (·.contains address) = some r ∧ r.contains address = true ∧
      ∃ front, regions = front ++ r :: following ∧ ∀ q ∈ front, q.contains address = false := by
  have hfind : regions.find? (·.contains address) = some r := by
    rw [List.find?_eq_head?_dropWhile_not, h]
    rfl
  refine ⟨hfind, by simpa using List.find?_some hfind,
    regions.takeWhile fun q => !q.contains address, ?_, ?_⟩
  · rw [← h, List.takeWhile_append_dropWhile]
  · intro q hq
    simpa using List.mem_takeWhile_imp hq

/-- What a query may answer, given the line that holds the address and the lines behind it. -/
structure Answers (c c' : PinnedBlocks α) (p : Profile) (r : Region) (following : List Region)
    (address programBreak pageSize : Nat) (region : Region) : Prop where
  contains_eq : region.contains address = true
  readable : region.isReadable = true
  all_readable : ∀ a, region.contains a = true →
    ∃ q ∈ r :: following, q.contains a = true ∧ q.isReadable = true
  narrowed_or_merged : r.endsAtBreak p programBreak pageSize = .ok true ∧
      c.pin p r address = (.ok (some region), c') ∨ r.Merged following region

theorem answers_absorb {p : Profile} {r : Region} {following : List Region}
    {programBreak pageSize : Nat} (hr : r.contains address = true) (hread : r.isReadable = true)
    (hlines : ∀ q ∈ following, q.start < q.stop) (c' : PinnedBlocks α) :
    c.Answers c' p r following address programBreak pageSize (r.absorb following) := by
  have hmerged := Region.merged_absorb r following
  refine ⟨hmerged.contains hlines hr, ?_, fun a ha => hmerged.readable hread ha, .inr hmerged⟩
  obtain ⟨absorbed, rest, -, hwhole, -⟩ := hmerged
  rw [hwhole]
  exact hread

/-- Once the line that holds the address is found readable, the query answers. -/
theorem enclosing_of_dropWhile {p : Profile} {regions following : List Region} {r : Region}
    {programBreak pageSize : Nat} (hpage : 1 ≤ pageSize)
    (hdrop : regions.dropWhile (fun q => !q.contains address) = r :: following)
    (hr : r.contains address = true) (hread : r.isReadable = true) (hmax : address < Word.max)
    (hlines : ∀ q ∈ following, q.start < q.stop) :
    ∃ region c', c.enclosing p regions address programBreak pageSize = (.ok (some region), c') ∧
      c.Answers c' p r following address programBreak pageSize region := by
  obtain ⟨heap, hheap⟩ := Region.endsAtBreak_ok (p := p) hpage r programBreak
  unfold enclosing
  rw [hdrop]
  simp only [hread, hheap, Bool.not_true, Bool.false_eq_true, if_false]
  cases heap with
  | false => exact ⟨_, c, rfl, answers_absorb hr hread hlines c⟩
  | true =>
    obtain ⟨found, c', hpin, hpart⟩ := pin_ok (p := p) (c := c) hr hmax
    rw [hpin]
    cases found with
    | none => exact ⟨_, c', rfl, answers_absorb hr hread hlines c'⟩
    | some part =>
      have haround := hpart part rfl
      refine ⟨part, c', rfl, haround.contains_eq, ?_, ?_, .inl ⟨hheap, hpin⟩⟩
      · unfold Region.isReadable
        rw [haround.protection_eq]
        exact hread
      · exact fun a ha => ⟨r, List.mem_cons_self, haround.subset ha, hread⟩

/-- Whatever the listing is, the blocks that are pinned already and the allocator: a query answers
nothing if and only if the first region that holds the address is unreadable or there is none. Else
it answers readable memory around the address, which is narrowed to a stretch of the heap or reaches
as far as it can. Nothing on the way fails. -/
theorem enclosing_is_readable {σ : Type} [Source σ] (s : σ)
    (hlines : ∀ r ∈ Listing.read s, r.start < r.stop) (p : Profile) (c : PinnedBlocks α)
    (address programBreak : Nat) {pageSize : Nat} (hpage : 1 ≤ pageSize) :
    ∃ found c', c.enclosing p (Listing.read s) address programBreak pageSize = (.ok found, c') ∧
      (found = none ↔ (∀ r ∈ Listing.read s, r.contains address = false) ∨
        ∃ r, (Listing.read s).find? (·.contains address) = some r ∧ r.isReadable = false) ∧
      ∀ region, found = some region →
        region.contains address = true ∧ region.isReadable = true ∧
        (∀ a, region.contains a = true →
          ∃ r ∈ Listing.read s, r.contains a = true ∧ r.isReadable = true) ∧
        ∃ front r following, Listing.read s = front ++ r :: following ∧
          (∀ q ∈ front, q.contains address = false) ∧ r.contains address = true ∧
          (r.endsAtBreak p programBreak pageSize = .ok true ∧
              c.pin p r address = (.ok (some region), c') ∨
            r.Merged following region) := by
  cases hdrop : (Listing.read s).dropWhile fun q => !q.contains address with
  | nil =>
    have hnone : c.enclosing p (Listing.read s) address programBreak pageSize = (.ok none, c) := by
      rw [enclosing, hdrop]
    rw [List.dropWhile_eq_nil_iff] at hdrop
    exact ⟨none, c, hnone, iff_of_true rfl (.inl fun r hr => by simpa using hdrop r hr), nofun⟩
  | cons r following =>
    obtain ⟨hfind, hr, front, hsplit, hfront⟩ := find?_eq_some_of_dropWhile hdrop
    have hbehind : ∀ q ∈ r :: following, q ∈ Listing.read s :=
      fun q hq => hsplit ▸ List.mem_append_right _ hq
    have hmem := hbehind r List.mem_cons_self
    cases hread : r.isReadable with
    | false =>
      have hnone : c.enclosing p (Listing.read s) address programBreak pageSize =
          (.ok none, c) := by
        simp [enclosing, hdrop, hread]
      exact ⟨none, c, hnone, iff_of_true rfl (.inr ⟨r, hfind, hread⟩), nofun⟩
    | true =>
      have hmax : address < Word.max := by
        have hstop := (Listing.lt_size_of_mem_read hmem).2
        have hlt := (Region.contains_iff.mp hr).2
        unfold Word.max
        omega
      obtain ⟨region, c', henclosing, hanswers⟩ := enclosing_of_dropWhile (p := p) (c := c)
        hpage hdrop hr hread hmax
        fun q hq => hlines q (hbehind q (List.mem_cons_of_mem _ hq))
      refine ⟨some region, c', henclosing, iff_of_false nofun ?_, ?_⟩
      · rintro (hall | ⟨q, hq, hunreadable⟩)
        · rw [hall r hmem] at hr
          cases hr
        · rw [hfind] at hq
          cases hq
          rw [hread] at hunreadable
          cases hunreadable
      · rintro region ⟨⟩
        refine ⟨hanswers.contains_eq, hanswers.readable, fun a ha => ?_, front, r, following,
          hsplit, hfront, hr, hanswers.narrowed_or_merged⟩
        obtain ⟨q, hq, hqa⟩ := hanswers.all_readable a ha
        exact ⟨q, hbehind q hq, hqa⟩

/-- A heap with a block pinned in its middle. The first fresh block lies below the address and goes
back, the second one ends the stretch. -/
theorem enclosing_is_readable_between_blocks :
    let listing := MemorySource.new "400-1400 rw-p 0\n1400-1800 r--p 0\n".toUTF8 .none
    let pinned : PinnedBlocks ScriptedAllocator :=
      ⟨(ScriptedAllocator.new 0x1400).push [0x400, 0x1000], #[0x800]⟩
    ∃ c', pinned.enclosing .checked (Listing.read listing) 0xc80 0x1400 0x400 =
        (.ok (some ⟨0xc00, 0x1000, .ofRights [.read, .write]⟩), c') ∧
      c'.blocks = #[0x800, 0x1000] ∧ ∀ a, 0xc00 ≤ a → a < 0x1000 →
        ∃ r ∈ Listing.read listing, r.contains a = true ∧ r.isReadable = true := by
  intro listing pinned
  have hread : Listing.read listing =
      [⟨0x400, 0x1400, .ofRights [.read, .write]⟩, ⟨0x1400, 0x1800, .ofRights [.read]⟩] := by
    decide +kernel
  have hlines : ∀ r ∈ Listing.read listing, r.start < r.stop := by
    rw [hread]
    decide
  obtain ⟨found, c', henclosing, -, hall⟩ :=
    enclosing_is_readable listing hlines .checked pinned 0xc80 0x1400 (show 1 ≤ 0x400 by decide)
  have hrun : pinned.enclosing .checked (Listing.read listing) 0xc80 0x1400 0x400 =
      (.ok (some ⟨0xc00, 0x1000, .ofRights [.read, .write]⟩),
        ⟨⟨[], #[0x400], 2, 0x1400⟩, #[0x800, 0x1000]⟩) := by
    rw [hread]
    cbv
  rw [hrun] at henclosing
  cases henclosing
  obtain ⟨-, -, hreadable, -⟩ := hall _ rfl
  exact ⟨_, hrun, rfl, fun a hstart hstop =>
    hreadable a (Region.contains_iff.mpr ⟨hstart, hstop⟩)⟩

end PinnedBlocks

end TraceCapture
