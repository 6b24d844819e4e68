import TraceCapture.Proofs.Reader.Seeking

set_option autoImplicit false

/-!
# Readers that are alike

Readers that are related by what reads and skips keep (`Together`) answer the same for good.

Nobody who calls a reader can tell what is cached of the bytes that will be stepped over, nor how
often its codec was asked. `Alike` readers differ in nothing else. A load keeps them so if the codec
answers the same however often it was asked before. A steady codec always does; any codec does for
the entries of a file that decode, so readers that stay among these are alike with any codec.
-/

namespace TraceCapture

/-- The codec decodes every block alike whenever it is asked, as one without a state of its own
does. -/
def Codec.Steady (codec : Codec) : Prop :=
  ∀ call call' block room, codec.decompress call block room = codec.decompress call' block room

theorem Codec.steady_lz4 (p : Profile) : (Codec.lz4 p).Steady :=
  fun _ _ _ _ => rfl

namespace Reader

variable {σ : Type}

def SameButCache (r r' : Reader σ) : Prop :=
  ∃ cache decompressions, r' = { r with cache, decompressions }

structure SameLoad (agrees : Prop) (step step' : Outcome TraceError Unit × Reader σ) : Prop where
  same : SameButCache step.2 step'.2
  agree : agrees → step.1 = step'.1 ∧ step.2.cache = step'.2.cache

/-- Readers that differ only in how often they asked their codec and in what they cached of the
next `ahead` bytes. -/
structure Alike (ahead : Nat) (r r' : Reader σ) : Prop where
  same : SameButCache r r'
  size_eq : r.cache.size = r'.cache.size
  rest_eq : ∀ i, r.cursor + ahead ≤ i →
    r.cache.extract i r.cache.size = r'.cache.extract i r.cache.size

structure View where
  offset : Offset
  percent : Nat
  atEnd : Bool

def view (r : Reader σ) : View := ⟨r.currentOffset, r.percentRead, r.endOfData⟩

inductive Reply where
  | bytes (o : Outcome TraceError ByteArray)
  | skipped (o : Outcome TraceError Bool)
  | sought (o : Outcome TraceError Unit)

def ReaderCall.reply [Source σ] (r : Reader σ) : ReaderCall → Reply
  | read call => .bytes (call.perform r).1
  | skip n => .skipped (r.skip n).1
  | seek o => .sought (r.setCurrentOffset o).1

/-- All that calls answer one after the other, and what the reader tells behind each of them. -/
def observe [Source σ] (r : Reader σ) : List ReaderCall → List (Reply × View)
  | [] => []
  | call :: calls => (call.reply r, (call.perform r).view) :: (call.perform r).observe calls

/-- A relation of readers that reads and skips keep, for a caller that will step over the next
`ahead` bytes: related readers tell the same, and load the same if they have to. -/
structure Together [Source σ] (R : Nat → Reader σ → Reader σ → Prop) : Prop where
  view_eq : ∀ {n r r'}, R n r r' → r.view = r'.view
  available_eq : ∀ {n r r'}, R n r r' → r.available = r'.available
  exhausted_eq : ∀ {n r r'}, R n r r' → r.exhausted = r'.exhausted
  cached_eq : ∀ {r r' k}, R 0 r r' → k ≤ r.available →
    r.cache.extract r.cursor (r.cursor + k) = r'.cache.extract r'.cursor (r'.cursor + k)
  mono : ∀ {n r r'}, R 0 r r' → R n r r'
  stepped : ∀ {n r r'}, R n r r' → R 0 { r with cursor := r.cursor + min r.available n }
    { r' with cursor := r'.cursor + min r.available n }
  load : ∀ {r r' skip o v}, R 0 r r' → ¬ r.exhausted = true → r.loadChunk skip = (o, v) →
    ∃ v', r'.loadChunk skip = (o, v') ∧ R skip v v' ∧ (o ≠ .ok () → R 0 v v')

structure AnswersAlike {α : Type} (R : Nat → Reader σ → Reader σ → Prop)
    (step step' : Outcome TraceError α × Reader σ) : Prop where
  outcome_eq : step.1 = step'.1
  related : R 0 step.2 step'.2

theorem AnswersAlike.map {α β : Type} {R : Nat → Reader σ → Reader σ → Prop}
    {step step' : Outcome TraceError α × Reader σ} (h : AnswersAlike R step step') (f : α → β) :
    AnswersAlike R (step.1.map f, step.2) (step'.1.map f, step'.2) :=
  ⟨congrArg (Outcome.map f) h.outcome_eq, h.related⟩

namespace Together

variable [Source σ] {R : Nat → Reader σ → Reader σ → Prop} {r r' : Reader σ}

theorem readOn (hR : Together R) (h : R 0 r r') (n : Nat) (out : ByteArray) :
    AnswersAlike R (r.readOn n out) (r'.readOn n out) := by
  fun_induction Reader.readOn r n out generalizing r' with
  | case1 r out hn =>
    rw [readOn_eq, if_pos hn]
    exact ⟨rfl, h⟩
  | case2 r out hn h0 hr =>
    rw [readOn_eq, if_neg hn, if_pos (hR.available_eq h ▸ h0), if_pos (hR.exhausted_eq h ▸ hr)]
    exact ⟨rfl, h⟩
  | case3 r out hn h0 hr v hload ih =>
    obtain ⟨v', hv', hnext, -⟩ := hR.load h hr hload
    rw [readOn_eq r', if_neg hn, if_pos (hR.available_eq h ▸ h0),
      if_neg (hR.exhausted_eq h ▸ hr), hv']
    exact ih hnext
  | case4 r out hn h0 hr e v hload | case5 r out hn h0 hr cause v hload =>
    obtain ⟨v', hv', hnext, -⟩ := hR.load h hr hload
    rw [readOn_eq r', if_neg hn, if_pos (hR.available_eq h ▸ h0),
      if_neg (hR.exhausted_eq h ▸ hr), hv']
    exact ⟨rfl, hnext⟩
  | case6 r out hn h0 stop =>
    rename_i ih
    have hall := ih (hR.stepped (hR.mono h))
    have hpiece := hR.cached_eq h (Nat.min_le_left r.available (n - out.size))
    rw [readOn_eq r', if_neg hn, if_neg (hR.available_eq h ▸ h0)]
    dsimp only [stop] at hall ⊢
    rw [← hR.available_eq h, ← hpiece]
    exact hall

theorem skipOn (hR : Together R) {n : Nat} (h : R n r r') :
    AnswersAlike R (r.skipOn n) (r'.skipOn n) := by
  fun_induction Reader.skipOn r n generalizing r' with
  | case1 r n step stepped =>
    rename_i hn
    rw [skipOn_eq]
    dsimp only
    rw [← hR.available_eq h, if_pos hn]
    exact ⟨rfl, hR.stepped h⟩
  | case2 r n step stepped hn =>
    rename_i hr
    rw [skipOn_eq]
    dsimp only
    rw [← hR.available_eq h, if_neg hn, if_pos (hR.exhausted_eq h ▸ hr)]
    exact ⟨rfl, hR.stepped h⟩
  | case3 r n step stepped hn hr v hload =>
    rename_i ih
    obtain ⟨v', hv', hnext, -⟩ := hR.load (hR.stepped h) hr hload
    rw [skipOn_eq r']
    dsimp only
    rw [← hR.available_eq h, if_neg hn, if_neg (hR.exhausted_eq h ▸ hr), hv']
    exact ih hnext
  | case4 r n step stepped hn hr e v | case5 r n step stepped hn hr cause v =>
    rename_i hload
    obtain ⟨v', hv', -, hfailed⟩ := hR.load (hR.stepped h) hr hload
    rw [skipOn_eq r']
    dsimp only
    rw [← hR.available_eq h, if_neg hn, if_neg (hR.exhausted_eq h ▸ hr), hv']
    exact ⟨rfl, hfailed (by simp)⟩

theorem read (hR : Together R) (h : R 0 r r') (call : ReadCall) :
    AnswersAlike R (call.perform r) (call.perform r') := by
  cases call with
  | bytes n => exact hR.readOn h n .empty
  | byte => exact ((hR.readOn h 1 .empty).map _).map _

theorem skip (hR : Together R) (h : R 0 r r') (n : Nat) :
    AnswersAlike R (r.skip n) (r'.skip n) := by
  have hend : r'.endOfData = r.endOfData := (congrArg View.atEnd (hR.view_eq h)).symm
  unfold Reader.skip
  rw [hend]
  split
  · exact ⟨rfl, h⟩
  · exact (hR.skipOn (hR.mono h)).map _

theorem observe_eq (hR : Together R) {places : Nat → Prop}
    (hseek : ∀ {r r' o}, R 0 r r' → places o.chunk →
      AnswersAlike R (r.setCurrentOffset o) (r'.setCurrentOffset o))
    (h : R 0 r r') (calls : List ReaderCall) (hcalls : ∀ call ∈ calls, call.Within places) :
    r.observe calls = r'.observe calls := by
  induction calls generalizing r r' with
  | nil => rfl
  | cons call calls ih =>
    have hstep : call.reply r = call.reply r' ∧ R 0 (call.perform r) (call.perform r') := by
      have hcall := hcalls call List.mem_cons_self
      cases call with
      | read call =>
        have hsame := hR.read h call
        exact ⟨congrArg Reply.bytes hsame.outcome_eq, hsame.related⟩
      | skip n =>
        have hsame := hR.skip h n
        exact ⟨congrArg Reply.skipped hsame.outcome_eq, hsame.related⟩
      | seek o =>
        have hsame := hseek h hcall
        exact ⟨congrArg Reply.sought hsame.outcome_eq, hsame.related⟩
    obtain ⟨hreply, hnext⟩ := hstep
    rw [observe, observe, hreply, hR.view_eq hnext,
      ih hnext fun c hc => hcalls c (List.mem_cons_of_mem _ hc)]

end Together

variable {r r' : Reader σ} {ahead : Nat}

theorem SameButCache.cacheBlock {agrees : Prop} {skip skip' : Nat} (h : SameButCache r r')
    (hagrees : agrees → r.codec.Steady ∧ skip = skip') (block : ByteArray) (size : Nat) :
    SameLoad agrees (r.cacheBlock block size skip) (r'.cacheBlock block size skip') := by
  obtain ⟨cache, decompressions, rfl⟩ := h
  constructor
  · unfold Reader.cacheBlock
    split <;> split <;> exact ⟨_, _, rfl⟩
  · intro h
    obtain ⟨hsteady, rfl⟩ := hagrees h
    unfold Reader.cacheBlock
    dsimp only
    rw [hsteady decompressions r.decompressions]
    split <;> exact ⟨rfl, rfl⟩

/-- Loads take readers that differ in their caches through the same entry. -/
theorem SameButCache.loadChunk [Source σ] {agrees : Prop} {skip skip' : Nat}
    (h : SameButCache r r') (hagrees : agrees → r.codec.Steady ∧ skip = skip') :
    SameLoad agrees (r.loadChunk skip) (r'.loadChunk skip') := by
  obtain ⟨cache, decompressions, rfl⟩ := h
  have hfetched : ({ r with cache, decompressions } : Reader σ).fetched = r.fetched := rfl
  rw [loadChunk_eq, loadChunk_eq, hfetched]
  unfold settle
  dsimp only [buffered, between]
  split
  · exact ⟨⟨_, _, rfl⟩, fun _ => ⟨rfl, rfl⟩⟩
  · exact ⟨⟨_, _, rfl⟩, fun _ => ⟨rfl, rfl⟩⟩
  · exact ⟨⟨_, _, rfl⟩, fun _ => ⟨rfl, rfl⟩⟩
  · split
    · exact ⟨⟨_, _, rfl⟩, fun _ => ⟨rfl, rfl⟩⟩
    · apply SameButCache.cacheBlock
      · exact ⟨_, _, rfl⟩
      · exact hagrees

theorem Alike.refl (r : Reader σ) : Alike 0 r r :=
  ⟨⟨_, _, rfl⟩, rfl, fun _ _ => rfl⟩

theorem Alike.mono {ahead' : Nat} (h : Alike ahead r r') (hle : ahead ≤ ahead') :
    Alike ahead' r r' :=
  ⟨h.same, h.size_eq, fun i hi => h.rest_eq i (by omega)⟩

theorem Alike.advance (h : Alike ahead r r') (k : Nat) :
    Alike (ahead - k) { r with cursor := r.cursor + k } { r' with cursor := r'.cursor + k } := by
  obtain ⟨⟨cache, decompressions, rfl⟩, hsize, hrest⟩ := h
  refine ⟨⟨_, _, rfl⟩, hsize, fun i hi => hrest i ?_⟩
  dsimp only at hi
  omega

theorem Alike.place (h : Alike 0 r r') (hcursor : r.cursor = 0) (w : Nat) :
    Alike 0 { r with cursor := w } { r' with cursor := w } := by
  have hnext := h.advance w
  obtain ⟨⟨cache, decompressions, rfl⟩, -⟩ := h
  simpa [hcursor] using hnext

theorem Alike.stepped {n : Nat} (h : Alike n r r') :
    Alike 0 { r with cursor := r.cursor + min r.available n }
      { r' with cursor := r'.cursor + min r.available n } := by
  obtain ⟨⟨cache, decompressions, rfl⟩, hsize, hrest⟩ := h
  refine ⟨⟨cache, decompressions, rfl⟩, hsize, fun i hi => ?_⟩
  dsimp only [available] at hsize hi ⊢
  by_cases hn : r.cursor + n ≤ i
  · exact hrest i hn
  · rw [ByteArray.extract_eq_empty_iff.mpr (by omega),
      ByteArray.extract_eq_empty_iff.mpr (by omega)]

theorem Alike.view_eq (h : Alike ahead r r') : r.view = r'.view := by
  obtain ⟨⟨cache, decompressions, rfl⟩, hsize, -⟩ := h
  simp only [view, endOfData, available, hsize]
  rfl

theorem Alike.available_eq (h : Alike ahead r r') : r.available = r'.available := by
  obtain ⟨⟨cache, decompressions, rfl⟩, hsize, -⟩ := h
  simp only [available, hsize]

theorem Alike.exhausted_eq (h : Alike ahead r r') : r.exhausted = r'.exhausted := by
  obtain ⟨⟨cache, decompressions, rfl⟩, -⟩ := h
  rfl

theorem Alike.cached_eq (h : Alike 0 r r') {k : Nat} (hk : k ≤ r.available) :
    r.cache.extract r.cursor (r.cursor + k) = r'.cache.extract r'.cursor (r'.cursor + k) := by
  have hrest := h.rest_eq r.cursor (Nat.le_refl _)
  have hcut := (extract_step hk .empty).2
  rw [ByteArray.append_empty] at hcut
  have hcut' := (extract_step (r := r') (h.available_eq ▸ hk) .empty).2
  rw [ByteArray.append_empty] at hcut'
  obtain ⟨⟨cache, decompressions, rfl⟩, hsize, -⟩ := h
  rw [← hcut, ← hcut', hrest, hsize]

section

variable [LawfulSource σ] {source : σ} {codec : Codec} {file : ByteArray} {chunks : List ByteArray}

theorem alike_loadChunk_entry (hd : codec.Decodes file magic.size chunks) {k : Nat}
    (hk : k ≤ chunks.length) (hcodec : r.codec = codec) (hex : r.exhausted = false)
    (hpos : r.position = Entry.after file magic.size k) (hat : Source.At r.inner file r.position)
    (hsame : SameButCache r r') {skip skip' : Nat} (hle : skip' ≤ skip) :
    ∃ v v', r.loadChunk skip = (.ok (), v) ∧ r'.loadChunk skip' = (.ok (), v') ∧
      Alike skip v v' ∧ Caches codec file chunks skip k v := by
  have hstep : SameLoad False (r.loadChunk skip) (r'.loadChunk skip') := hsame.loadChunk nofun
  obtain ⟨v, hv, hcaches, hcursor⟩ := caches_loadChunk hd hk hcodec hex hpos hat skip
  obtain ⟨cache, decompressions, rfl⟩ := hsame
  obtain ⟨v', hv', hcaches', hcursor'⟩ := caches_loadChunk
    (r := { r with cache, decompressions }) hd hk hcodec hex hpos hat skip'
  rw [hv, hv'] at hstep
  refine ⟨v, v', hv, hv', ⟨hstep.same, ?_, fun i hi => ?_⟩, hcaches⟩
  · rw [hcaches.size_eq, hcaches'.size_eq]
  · rw [hcaches.rest_eq i hi, hcaches.size_eq, ← hcaches'.size_eq,
      hcaches'.rest_eq i (by omega)]

/-- Places that seeks may lead to: those of the entries, and all if the codec is steady. -/
def Known (codec : Codec) (file : ByteArray) (chunks : List ByteArray) (i : Nat) : Prop :=
  codec.Steady ∨ ∃ k ≤ chunks.length, i = Entry.after file magic.size k

structure Awaits (source : σ) (codec : Codec) (file : ByteArray) (chunks : List ByteArray)
    (r : Reader σ) : Prop where
  origin : Over source codec r
  live : r.exhausted = false
  known : codec.Steady ∨ ∃ k ≤ chunks.length, r.position = Entry.after file magic.size k ∧
    Source.At r.inner file r.position

structure Reliable (source : σ) (codec : Codec) (file : ByteArray) (chunks : List ByteArray)
    (r : Reader σ) : Prop where
  origin : Over source codec r
  known : codec.Steady ∨ ∃ ahead k, Caches codec file chunks ahead k r

theorem Reliable.step (h : Reliable source codec file chunks r) {k : Nat} (hk : k ≤ r.available) :
    Reliable source codec file chunks { r with cursor := r.cursor + k } where
  origin := ⟨h.origin.codec_eq, h.origin.visits⟩
  known := h.known.imp_right fun ⟨ahead, i, hcaches⟩ => ⟨ahead - k, i, hcaches.advance hk⟩

theorem Reliable.awaits (h : Reliable source codec file chunks r) (hex : ¬ r.exhausted = true) :
    Awaits source codec file chunks r := by
  refine ⟨h.origin, Bool.eq_false_iff.mpr hex, h.known.imp_right ?_⟩
  rintro ⟨ahead, k, hcaches⟩
  obtain ⟨hlt, hpos, hat⟩ := hcaches.live hex
  exact ⟨k + 1, hlt, hpos, hat⟩

theorem Awaits.loadChunk (hd : codec.Decodes file magic.size chunks)
    (h : Awaits source codec file chunks r) (hsame : SameButCache r r') {skip : Nat}
    {o : Outcome TraceError Unit} {v : Reader σ} (hload : r.loadChunk skip = (o, v)) :
    ∃ v', r'.loadChunk skip = (o, v') ∧ Alike skip v v' ∧ (o ≠ .ok () → Alike 0 v v') ∧
      Reliable source codec file chunks v := by
  have hfrom := h.origin.loadChunk skip
  rw [hload] at hfrom
  rcases h.known with hsteady | ⟨k, hk, hpos, hat⟩
  · -- a steady codec decodes for both readers what it decodes for one
    have hstep : SameLoad True (r.loadChunk skip) (r'.loadChunk skip) :=
      hsame.loadChunk fun _ => ⟨h.origin.codec_eq ▸ hsteady, rfl⟩
    rw [hload] at hstep
    obtain ⟨hout, hcache⟩ := hstep.agree trivial
    have halike : Alike 0 v (r'.loadChunk skip).2 := by
      refine ⟨hstep.same, ?_, fun i _ => ?_⟩
      · rw [← hcache]
      · rw [← hcache]
    exact ⟨(r'.loadChunk skip).2, Prod.ext hout.symm rfl, halike.mono (Nat.zero_le skip),
      fun _ => halike, hfrom, .inl hsteady⟩
  · -- otherwise the entry is one that every call decodes alike
    obtain ⟨u, v', hu, hv', halike, hnext⟩ :=
      alike_loadChunk_entry hd hk h.origin.codec_eq h.live hpos hat hsame (Nat.le_refl skip)
    rw [hload] at hu
    cases hu
    exact ⟨v', hv', halike, fun hne => absurd rfl hne, hfrom, .inr ⟨skip, k, hnext⟩⟩

structure SameCall {α : Type} (source : σ) (codec : Codec) (file : ByteArray)
    (chunks : List ByteArray) (step step' : Outcome TraceError α × Reader σ) : Prop where
  outcome_eq : step.1 = step'.1
  alike : Alike 0 step.2 step'.2
  reliable : Reliable source codec file chunks step.2

theorem together_alike (hd : codec.Decodes file magic.size chunks) :
    Together fun n (r r' : Reader σ) => Alike n r r' ∧ Reliable source codec file chunks r where
  view_eq h := h.1.view_eq
  available_eq h := h.1.available_eq
  exhausted_eq h := h.1.exhausted_eq
  cached_eq h hk := h.1.cached_eq hk
  mono h := ⟨h.1.mono (Nat.zero_le _), h.2⟩
  stepped h := ⟨h.1.stepped, h.2.step (Nat.min_le_left _ _)⟩
  load h hr hload := by
    obtain ⟨v', hv', hnext, hfailed, hreliable⟩ := (h.2.awaits hr).loadChunk hd h.1.same hload
    exact ⟨v', hv', ⟨hnext, hreliable⟩, fun hne => ⟨hfailed hne, hreliable⟩⟩

theorem Reliable.sought (hmagic : file.extract 0 magic.size = magic) (hs : Source.Seekable source)
    (hc : LawfulSource.contents source = file) (h : Reliable source codec file chunks r) {i : Nat}
    (hi : Known codec file chunks i) {inner : σ}
    (hseek : Source.seekStart r.inner i = (.ok (), inner)) :
    Awaits source codec file chunks { r with inner, position := i, exhausted := false } := by
  have hvisits := h.origin.visits.seekStart i
  rw [hseek] at hvisits
  refine ⟨⟨h.origin.codec_eq, hvisits⟩, rfl, hi.imp_right ?_⟩
  rintro ⟨k, hk, rfl⟩
  obtain ⟨u, hu, hat⟩ := hs.at h.origin.visits hc (Entry.after_le (magic_size_le hmagic) k)
  rw [hseek] at hu
  cases hu
  exact ⟨k, hk, rfl, hat⟩

theorem Reliable.setCurrentOffset (hd : codec.Decodes file magic.size chunks)
    (hmagic : file.extract 0 magic.size = magic) (hs : Source.Seekable source)
    (hc : LawfulSource.contents source = file) (h : Reliable source codec file chunks r)
    {o : Offset} (ho : Known codec file chunks o.chunk) :
    Reliable source codec file chunks (r.setCurrentOffset o).2 := by
  have hmoves : Moves (fun _ => True) r (r.setCurrentOffset o).2 :=
    (Moves.refl.setCurrentOffset trivial).moves
  refine ⟨h.origin.moves hmoves, ho.imp_right ?_⟩
  rintro ⟨k, hk, hplace⟩
  obtain ⟨hinside, hbeyond⟩ := seek_standsAt hd hmagic hs hc h.origin hk o.within
  rw [← hplace] at hinside hbeyond
  rcases Nat.lt_or_ge (chunks.getD k .empty).size o.within with hw | hw
  · obtain ⟨v, hv, i, hcaches, -⟩ := hbeyond hw
    exact ⟨0, i, hv ▸ hcaches⟩
  · obtain ⟨v, hv, i, hcaches, -⟩ := hinside hw
    exact ⟨0, i, hv ▸ hcaches⟩

theorem Alike.setCurrentOffset (hd : codec.Decodes file magic.size chunks)
    (hmagic : file.extract 0 magic.size = magic) (hs : Source.Seekable source)
    (hc : LawfulSource.contents source = file) (ha : Alike 0 r r')
    (h : Reliable source codec file chunks r) {o : Offset} (ho : Known codec file chunks o.chunk) :
    SameCall source codec file chunks (r.setCurrentOffset o) (r'.setCurrentOffset o) := by
  have hreliable := h.setCurrentOffset hd hmagic hs hc ho
  suffices hsame : (r.setCurrentOffset o).1 = (r'.setCurrentOffset o).1 ∧
      Alike 0 (r.setCurrentOffset o).2 (r'.setCurrentOffset o).2 from
    ⟨hsame.1, hsame.2, hreliable⟩
  obtain ⟨⟨cache, decompressions, rfl⟩, hsize, hrest⟩ := ha
  unfold Reader.setCurrentOffset
  dsimp only
  cases hseek : Source.seekStart r.inner o.chunk with
  | mk sought inner =>
    cases sought with
    | error e => exact ⟨rfl, ⟨_, _, rfl⟩, hsize, hrest⟩
    | ok =>
      have hawaits := h.sought hmagic hs hc ho hseek
      have hfront := currentOffset_loadChunk
        { r with inner, position := o.chunk, exhausted := false } 0
      dsimp only
      cases hload : { r with inner, position := o.chunk, exhausted := false }.loadChunk 0 with
      | mk loaded v =>
        rw [hload] at hfront
        obtain ⟨v', hv', halike, -⟩ := hawaits.loadChunk hd ⟨cache, decompressions, rfl⟩ hload
        rw [hv']
        cases loaded with
        | error | panicked => exact ⟨rfl, halike⟩
        | ok =>
          dsimp only
          rw [halike.size_eq]
          split
          · exact ⟨rfl, halike⟩
          · exact ⟨rfl, halike.place (congrArg Offset.within hfront) o.within⟩

theorem Alike.observe_eq (hd : codec.Decodes file magic.size chunks)
    (hmagic : file.extract 0 magic.size = magic) (hs : Source.Seekable source)
    (hc : LawfulSource.contents source = file) (ha : Alike 0 r r')
    (h : Reliable source codec file chunks r) (calls : List ReaderCall)
    (hcalls : ∀ call ∈ calls, call.Within (Known codec file chunks)) :
    r.observe calls = r'.observe calls := by
  -- every call leaves the readers alike, and `Reliable` that the codec goes on answering both
  refine (together_alike hd).observe_eq (fun h ho => ?_) ⟨ha, h⟩ calls hcalls
  have hsame := h.1.setCurrentOffset hd hmagic hs hc h.2 ho
  exact ⟨hsame.outcome_eq, hsame.alike, hsame.reliable⟩

end

end Reader

end TraceCapture
