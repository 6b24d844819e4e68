import TraceCapture.Proofs.Reader.Progress
import TraceCapture.Proofs.Reader.Skipping
import TraceCapture.Proofs.Stream.ReadsAlike

set_option autoImplicit false

namespace TraceCapture

namespace Source

variable {σ : Type} [Source σ] {s t : σ}

theorem ReadsAlike.fetchBlock (h : ReadsAlike s t) (length : Nat) :
    ∃ found s' t', Source.fetchBlock s length = (found, s') ∧
      Source.fetchBlock t length = (found, t') ∧
      (found = .ends (some length) ∨ ReadsAlike s' t') := by
  obtain ⟨answer, s', t', hs, ht, hnext⟩ := h.readExact? length
  unfold Source.fetchBlock
  rw [hs, ht]
  obtain _ | _ | _ := answer
  · exact ⟨_, _, _, rfl, rfl, .inr (hnext.resolve_left nofun)⟩
  · exact ⟨_, _, _, rfl, rfl, .inl rfl⟩
  · exact ⟨_, _, _, rfl, rfl, .inr (hnext.resolve_left nofun)⟩

theorem ReadsAlike.fetch (h : ReadsAlike s t) (limit : Nat) :
    ∃ found s' t', Source.fetch s limit = (found, s') ∧ Source.fetch t limit = (found, t') ∧
      ((∃ length?, found = .ends length?) ∨ ReadsAlike s' t') := by
  obtain ⟨answer, s', t', hs, ht, hnext⟩ := h.readExact? lengthSize
  unfold Source.fetch
  rw [hs, ht]
  obtain _ | _ | b := answer
  · exact ⟨_, _, _, rfl, rfl, .inr (hnext.resolve_left nofun)⟩
  · exact ⟨_, _, _, rfl, rfl, .inl ⟨_, rfl⟩⟩
  have hopen : ReadsAlike s' t' := hnext.resolve_left nofun
  dsimp only
  split
  · exact ⟨_, _, _, rfl, rfl, .inl ⟨_, rfl⟩⟩
  split
  · exact ⟨_, _, _, rfl, rfl, .inr hopen⟩
  · obtain ⟨found, s'', t'', hs', ht', hnext'⟩ := hopen.fetchBlock ((Bytes.toU32? b).getD 0)
    exact ⟨found, s'', t'', hs', ht', hnext'.imp_left fun heq => ⟨_, heq⟩⟩

end Source

namespace Reader

variable {σ : Type} [Source σ] {r r' : Reader σ}

/-- Readers that cached the same at the same place, over sources that go on alike if the stream
does, with codecs that answer alike. Nobody who reads on can tell them apart. -/
structure Twins (r r' : Reader σ) : Prop where
  same : ∃ inner bufferSize decompressions log,
    r' = { r with inner, bufferSize, decompressions, log }
  codec_alike : r'.decompressions = r.decompressions ∨ r.codec.Steady
  inner_alike : r.exhausted = true ∨ Source.ReadsAlike r.inner r'.inner

theorem Twins.cacheBlock (h : Twins r r') (block : ByteArray) (size skip : Nat) :
    AnswersAlike (fun _ => Twins) (r.cacheBlock block size skip)
      (r'.cacheBlock block size skip) := by
  obtain ⟨⟨inner, bufferSize, decompressions, log, rfl⟩, hcodec, hinner⟩ := h
  unfold Reader.cacheBlock
  dsimp only
  split
  · have hdecoded : r.codec.decompress decompressions block size =
        r.codec.decompress r.decompressions block size := by
      rcases hcodec with hsame | hsteady
      · exact congrArg (r.codec.decompress · block size) hsame
      · exact hsteady _ _ _ _
    rw [hdecoded]
    exact ⟨rfl, ⟨_, _, _, _, rfl⟩, hcodec.imp_left (congrArg (· + 1)), hinner⟩
  · exact ⟨rfl, ⟨_, _, _, _, rfl⟩, hcodec, hinner⟩

theorem Twins.loadChunk (h : Twins r r') (hex : r.exhausted = false) (skip : Nat) :
    AnswersAlike (fun _ => Twins) (r.loadChunk skip) (r'.loadChunk skip) := by
  obtain ⟨⟨inner, bufferSize, decompressions, log, rfl⟩, hcodec, hinner⟩ := h
  have hlive := hinner.resolve_left (Bool.eq_false_iff.mp hex)
  obtain ⟨found, s, t, hs, ht, hnext⟩ :=
    hlive.fetch (r.codec.maxCompressedSize maxChunkSize)
  rw [loadChunk_eq, loadChunk_eq, fetched, fetched, hs, ht]
  cases found with
  | fails cause length? =>
    have hopen : Source.ReadsAlike s t := hnext.resolve_left fun ⟨_, heq⟩ => nomatch heq
    cases length? <;> exact ⟨rfl, ⟨_, _, _, _, rfl⟩, hcodec, .inr hopen⟩
  | ends length? => cases length? <;> exact ⟨rfl, ⟨_, _, _, _, rfl⟩, hcodec, .inl rfl⟩
  | block length block =>
    have hopen : r.exhausted = true ∨ Source.ReadsAlike s t :=
      .inr (hnext.resolve_left fun ⟨_, heq⟩ => nomatch heq)
    unfold settle
    dsimp only [buffered, between]
    split
    · exact ⟨rfl, ⟨_, _, _, _, rfl⟩, hcodec, hopen⟩
    · apply Twins.cacheBlock
      exact ⟨⟨_, _, _, _, rfl⟩, hcodec, hopen⟩

theorem together_twins : Together fun _ (r r' : Reader σ) => Twins r r' where
  view_eq h := by
    obtain ⟨⟨inner, bufferSize, decompressions, log, rfl⟩, -⟩ := h
    rfl
  available_eq h := by
    obtain ⟨⟨inner, bufferSize, decompressions, log, rfl⟩, -⟩ := h
    rfl
  exhausted_eq h := by
    obtain ⟨⟨inner, bufferSize, decompressions, log, rfl⟩, -⟩ := h
    rfl
  cached_eq h _ := by
    obtain ⟨⟨inner, bufferSize, decompressions, log, rfl⟩, -⟩ := h
    rfl
  mono h := h
  stepped h := by
    obtain ⟨⟨inner, bufferSize, decompressions, log, rfl⟩, hcodec, hinner⟩ := h
    exact ⟨⟨inner, bufferSize, decompressions, log, rfl⟩, hcodec, hinner⟩
  load {r r' skip o v} h hr hload := by
    have hstep := h.loadChunk (Bool.eq_false_iff.mpr hr) skip
    rw [hload] at hstep
    exact ⟨(r'.loadChunk skip).2, Prod.ext hstep.outcome_eq.symm rfl, hstep.related,
      fun _ => hstep.related⟩

theorem Twins.observe_eq (h : Twins r r') (calls : List ReaderCall)
    (hcalls : ∀ call ∈ calls, call.Onward) : r.observe calls = r'.observe calls :=
  together_twins.observe_eq (fun _ hplace => hplace.elim) h calls hcalls

theorem setCurrentOffset_of_refused {o : Offset} {cause : IoError} {t : σ}
    (h : Source.seekStart r.inner o.chunk = (.error cause, t)) :
    r.setCurrentOffset o = (.error (.io cause), { r with inner := t }) := by
  rw [setCurrentOffset, h]

def sentTo (r : Reader σ) (chunk : Nat) (t : σ) : Reader σ :=
  { r with inner := t, position := chunk, exhausted := false }

theorem setCurrentOffset_start {chunk : Nat} {t : σ}
    (h : Source.seekStart r.inner chunk = (.ok (), t)) :
    r.setCurrentOffset ⟨chunk, 0⟩ = (r.sentTo chunk t).loadChunk 0 := by
  have hfront := currentOffset_loadChunk (r.sentTo chunk t) 0
  rw [setCurrentOffset, h]
  unfold sentTo at hfront ⊢
  dsimp only at hfront ⊢
  generalize loadChunk { r with inner := t, position := chunk, exhausted := false } 0 = step
    at hfront ⊢
  obtain ⟨outcome, v⟩ := step
  cases outcome with
  | ok =>
    have hcursor : v.cursor = 0 := congrArg Offset.within hfront
    dsimp only
    rw [if_neg (Nat.not_lt_zero _), ← hcursor]
  | error | panicked => rfl

theorem setCurrentOffset_of_sought {o : Offset} {t : σ}
    (h : Source.seekStart r.inner o.chunk = (.ok (), t)) :
    r.setCurrentOffset o =
      match r.setCurrentOffset ⟨o.chunk, 0⟩ with
      | (.ok (), v) =>
          if v.cache.size < o.within then
            (.error (.invalidOffset o.chunk o.within v.cache.size), v)
          else (.ok (), { v with cursor := o.within })
      | failed => failed := by
  rw [setCurrentOffset_start h, setCurrentOffset, h]
  rfl

theorem currentOffset_of_sought {chunk : Nat} {t : σ}
    (h : Source.seekStart r.inner chunk = (.ok (), t)) :
    (r.setCurrentOffset ⟨chunk, 0⟩).2.currentOffset = ⟨chunk, 0⟩ := by
  rw [setCurrentOffset_start h]
  exact currentOffset_loadChunk _ 0

/-- A seek that is rejected after the source was sent to the entry is rejected by the load of the
chunk, or because the chunk is too short. -/
theorem of_setCurrentOffset_error {o : Offset} {t : σ} {e : TraceError}
    (hs : Source.seekStart r.inner o.chunk = (.ok (), t))
    (h : r.setCurrentOffset o = (.error e, r')) :
    r.setCurrentOffset ⟨o.chunk, 0⟩ = (.error e, r') ∨
      r.setCurrentOffset ⟨o.chunk, 0⟩ = (.ok (), r') ∧ r'.cache.size < o.within ∧
        e = .invalidOffset o.chunk o.within r'.cache.size := by
  rw [setCurrentOffset_of_sought hs] at h
  split at h
  · next v hv =>
    split at h <;> cases h
    next hshort => exact .inr ⟨hv, hshort, rfl⟩
  · exact .inl h

theorem Moves.fileLength_eq {places : Nat → Prop} {first : Reader σ} (h : Moves places first r) :
    r.fileLength = first.fileLength := by
  induction h with
  | refl => rfl
  | load _ _ skip ih => exact (advances_loadChunk _ skip).length_eq.trans ih
  | step _ _ ih | seek _ _ _ ih | refused _ _ ih | place _ _ ih => exact ih

/-- A seek forgets everything about a reader but its codec and its file. -/
theorem twins_setCurrentOffset {o : Offset} {t t' : σ} (hcodec : r'.codec = r.codec)
    (hsteady : r.codec.Steady) (hlength : r'.fileLength = r.fileLength)
    (hs : Source.seekStart r.inner o.chunk = (.ok (), t))
    (hs' : Source.seekStart r'.inner o.chunk = (.ok (), t')) (halike : Source.ReadsAlike t t') :
    AnswersAlike (fun _ => Twins) (r.setCurrentOffset o) (r'.setCurrentOffset o) := by
  -- the load does not look at what is cached, so it may as well start with nothing
  have hfront : Twins { r.sentTo o.chunk t with chunk := 0, cursor := 0, cache := .empty }
      { r'.sentTo o.chunk t' with chunk := 0, cursor := 0, cache := .empty } := by
    refine ⟨⟨t', r'.bufferSize, r'.decompressions, r'.log, ?_⟩, .inr hsteady, .inr halike⟩
    simp only [sentTo, hcodec, hlength]
  have hload : AnswersAlike (fun _ => Twins) ((r.sentTo o.chunk t).loadChunk 0)
      ((r'.sentTo o.chunk t').loadChunk 0) := hfront.loadChunk rfl 0
  rw [← setCurrentOffset_start hs, ← setCurrentOffset_start hs'] at hload
  rw [setCurrentOffset_of_sought hs, setCurrentOffset_of_sought hs']
  generalize r.setCurrentOffset ⟨o.chunk, 0⟩ = step at hload ⊢
  generalize r'.setCurrentOffset ⟨o.chunk, 0⟩ = step' at hload ⊢
  obtain ⟨outcome, v⟩ := step
  obtain ⟨_, v'⟩ := step'
  obtain ⟨hout, htwins⟩ := hload
  cases hout
  cases outcome with
  | error | panicked => exact ⟨rfl, htwins⟩
  | ok =>
    obtain ⟨⟨inner, bufferSize, decompressions, log, rfl⟩, hcalls, hinner⟩ := htwins
    dsimp only
    split
    · exact ⟨rfl, ⟨_, _, _, _, rfl⟩, hcalls, hinner⟩
    · exact ⟨rfl, ⟨_, _, _, _, rfl⟩, hcalls, hinner⟩

end Reader

/-- A seek that the source refuses leaves a reader where it was. One that is rejected later leaves
it where a seek to the start of its chunk does, which is rejected with the same error unless the
chunk is only too short. Either way nothing of it is left once a later seek to a place of the file
was made: that is answered, and the reader goes on, as if the rejected one had not been. -/
theorem rejected_seek_goes_to_its_chunk :
    (∀ (σ : Type) [Source σ] (r r' : Reader σ) (o : Offset) (e : TraceError),
      r.setCurrentOffset o = (.error e, r') →
      (∃ cause t, Source.seekStart r.inner o.chunk = (.error cause, t) ∧ e = .io cause ∧
        r'.view = r.view ∧ (Source.ReadsAlike r.inner t →
          ∀ calls : List Reader.ReaderCall, (∀ call ∈ calls, call.Onward) →
            r'.observe calls = r.observe calls)) ∨
      (∃ t, Source.seekStart r.inner o.chunk = (.ok (), t)) ∧
        (r.setCurrentOffset ⟨o.chunk, 0⟩ = (.error e, r') ∨
          r.setCurrentOffset ⟨o.chunk, 0⟩ = (.ok (), r') ∧ r'.currentOffset = ⟨o.chunk, 0⟩ ∧
            r'.cache.size < o.within ∧ e = .invalidOffset o.chunk o.within r'.cache.size)) ∧
    (∀ (s t : MemorySource) (n : Nat) (cause : IoError),
      Source.seekStart s n = (.error cause, t) → Source.ReadsAlike s t) ∧
    ∀ (σ : Type) [LawfulSource σ] (source : σ) (codec : Codec), codec.Steady →
      Source.Seekable source → ∀ r, Reader.Opened source codec r → ∀ (o : Offset) (e : TraceError)
        (r' : Reader σ), r.setCurrentOffset o = (.error e, r') →
      ∀ later : Offset, later.chunk ≤ (LawfulSource.contents source).size →
        (r'.setCurrentOffset later).1 = (r.setCurrentOffset later).1 ∧
        (r'.setCurrentOffset later).2.view = (r.setCurrentOffset later).2.view ∧
        ∀ calls : List Reader.ReaderCall, (∀ call ∈ calls, call.Onward) →
          (r'.setCurrentOffset later).2.observe calls =
            (r.setCurrentOffset later).2.observe calls := by
  refine ⟨fun σ _ r r' o e h => ?_, fun s t n cause => MemorySource.readsAlike_of_refused,
    fun σ _ source codec hsteady hseek r hr o e r' h later hlater => ?_⟩
  · cases hs : Source.seekStart r.inner o.chunk with
    | mk sought t =>
      cases sought with
      | error cause =>
        rw [Reader.setCurrentOffset_of_refused hs] at h
        cases h
        refine .inl ⟨cause, t, rfl, rfl, rfl, fun halike => ?_⟩
        have htwins : r.Twins { r with inner := t } :=
          ⟨⟨t, r.bufferSize, r.decompressions, r.log, rfl⟩, .inl rfl, .inr halike⟩
        exact fun calls hcalls => (htwins.observe_eq calls hcalls).symm
      | ok =>
        have hfront := Reader.currentOffset_of_sought hs
        refine .inr ⟨⟨t, rfl⟩, (Reader.of_setCurrentOffset_error hs h).imp_right ?_⟩
        rintro ⟨hstart, hshort⟩
        rw [hstart] at hfront
        exact ⟨hstart, hfront, hshort⟩
  · have hmoves : Reader.Moves (fun _ => True) r (r.setCurrentOffset o).2 :=
      (Reader.Moves.refl.setCurrentOffset trivial).moves
    rw [h] at hmoves
    have hover := hr.over
    have hover' := hover.moves hmoves
    obtain ⟨t, hs, hat⟩ := hseek.at hover.visits rfl hlater
    obtain ⟨t', hs', hat'⟩ := hseek.at hover'.visits rfl hlater
    have hsame := Reader.twins_setCurrentOffset (hover'.codec_eq.trans hover.codec_eq.symm)
      (hover.codec_eq ▸ hsteady) hmoves.fileLength_eq hs hs' (hat.readsAlike hat')
    exact ⟨hsame.outcome_eq.symm, (Reader.together_twins.view_eq (n := 0) hsame.related).symm,
      fun calls hcalls => (hsame.related.observe_eq calls hcalls).symm⟩

def pastFirstByte (faults : SourceFaults) : Reader MemorySource :=
  { inner := ⟨twoChunks, 13, 2, false, faults⟩, codec := .lz4 .checked, cache := ⟨#[104, 105]⟩,
    cursor := 1, bufferSize := 7, chunk := 2, position := 13, fileLength := 23, exhausted := false,
    decompressions := 1, log := #[] }

theorem opened_pastFirstByte :
    Reader.Opened (MemorySource.new twoChunks .none) (.lz4 .checked) (pastFirstByte .none) := by
  have hstart : Reader.start (MemorySource.new twoChunks .none) (.lz4 .checked) =
      .ok { pastFirstByte .none with cursor := 0 } := by
    have hfetched : Source.fetch (⟨twoChunks, 2, 2, false, .none⟩ : MemorySource)
        ((Codec.lz4 .checked).maxCompressedSize maxChunkSize) =
          (.block 7 ⟨#[2, 0, 0, 0, 32, 104, 105]⟩, (pastFirstByte .none).inner) :=
      Source.fetch_of_readFor (k := 2) rfl rfl (by decide) (by decide) rfl
    exact Reader.start_of_block rfl rfl (Source.readExact?_of_readFor (k := 2) rfl) hfetched
      Lz4.encodes_hi (by decide)
  have hread : ({ pastFirstByte .none with cursor := 0 } : Reader MemorySource).readBytes 1 =
      (.ok ⟨#[104]⟩, pastFirstByte .none) :=
    Reader.readBytes_cached (by decide)
  have hcall := Reader.Opened.call (.read (.bytes 1)) (.start hstart)
  change Reader.Opened _ _ (Reader.readBytes _ 1).2 at hcall
  rwa [hread] at hcall

def atSecondChunk : Reader MemorySource :=
  { pastFirstByte .none with
    inner := ⟨twoChunks, 23, 3, false, .none⟩, cache := ⟨#[33]⟩, cursor := 0, bufferSize := 6
    chunk := 13, position := 23, decompressions := 2 }

theorem seek_pastFirstByte :
    (pastFirstByte .none).setCurrentOffset ⟨13, 0⟩ = (.ok (), atSecondChunk) := by
  have hfetched : ((pastFirstByte .none).sentTo 13 ⟨twoChunks, 13, 3, false, .none⟩).fetched =
      (.block 6 ⟨#[1, 0, 0, 0, 16, 33]⟩, atSecondChunk.inner) :=
    Source.fetch_of_readFor (k := 2) rfl rfl (by decide) (by decide) rfl
  rw [Reader.setCurrentOffset_start rfl, Reader.loadChunk_eq]
  exact (congrArg (Reader.settle _ 0) hfetched).trans
    (Reader.settle_encoded encodes_lastByte Nat.one_pos)

theorem seek_behind_second_chunk : (pastFirstByte .none).setCurrentOffset ⟨13, 2⟩ =
    (.error (.invalidOffset 13 2 1), atSecondChunk) := by
  rw [Reader.setCurrentOffset_of_sought rfl, seek_pastFirstByte]
  rfl

/-- The second chunk has one byte. A seek to its third place goes to its first and back to the
second byte of the file as well as if nothing had happened; one that the source refuses goes
nowhere. -/
theorem rejected_seek_goes_to_its_chunk_behind_a_byte :
    ∃ r', (pastFirstByte .none).setCurrentOffset ⟨13, 2⟩ =
        (.error (.invalidOffset 13 2 1), r') ∧
      (pastFirstByte .none).setCurrentOffset ⟨13, 0⟩ = (.ok (), r') ∧ r'.currentOffset = ⟨13, 0⟩ ∧
      (r'.setCurrentOffset ⟨2, 1⟩).2.observe [.read (.bytes 2)] =
        ((pastFirstByte .none).setCurrentOffset ⟨2, 1⟩).2.observe [.read (.bytes 2)] ∧
      ∃ v, (pastFirstByte ⟨false, none, Word.max, some 3, none⟩).setCurrentOffset ⟨13, 2⟩ =
          (.error (.io (.other "seek refused")), v) ∧
        v.observe [.read (.bytes 2)] =
          (pastFirstByte ⟨false, none, Word.max, some 3, none⟩).observe [.read (.bytes 2)] := by
  obtain ⟨hcases, hmemory, hlater⟩ := rejected_seek_goes_to_its_chunk
  have hsound : (MemorySource.new twoChunks .none).Sound := MemorySource.sound_new (by decide)
  have honward : ∀ call ∈ [Reader.ReaderCall.read (.bytes 2)], call.Onward := by
    intro call hcall
    rw [List.mem_singleton.mp hcall]
    trivial
  refine ⟨_, seek_behind_second_chunk, seek_pastFirstByte, rfl, ?_, ?_⟩
  · exact (hlater _ _ _ (Codec.steady_lz4 _) hsound.seekable _ opened_pastFirstByte _ _ _
      seek_behind_second_chunk ⟨2, 1⟩ (by decide)).2.2 _ honward
  · have hrefused : ((pastFirstByte ⟨false, none, Word.max, some 3, none⟩).setCurrentOffset
        ⟨13, 2⟩).1 = .error (.io (.other "seek refused")) := rfl
    refine ⟨_, Prod.ext hrefused rfl, ?_⟩
    rcases hcases _ _ _ _ _ (Prod.ext hrefused rfl) with ⟨cause, t, hs, -, -, hsame⟩ | ⟨⟨t, hs⟩, -⟩
    · exact hsame (hmemory _ _ _ _ hs) _ honward
    · cases hs

/-- A seek to a place that the second chunk has not moves the reader off the second byte of the
file, which the next read then does not give. -/
theorem rejected_seek_loses_the_place :
    Reader.Opened (MemorySource.new twoChunks .none) (.lz4 .checked) (pastFirstByte .none) ∧
    ((pastFirstByte .none).setCurrentOffset ⟨13, 2⟩).1 = .error (.invalidOffset 13 2 1) ∧
    (pastFirstByte .none).currentOffset = ⟨2, 1⟩ ∧
    ((pastFirstByte .none).setCurrentOffset ⟨13, 2⟩).2.currentOffset = ⟨13, 0⟩ ∧
    ((pastFirstByte .none).readBytes 1).1 = .ok ⟨#[105]⟩ ∧
    (((pastFirstByte .none).setCurrentOffset ⟨13, 2⟩).2.readBytes 1).1 = .ok ⟨#[33]⟩ := by
  rw [seek_behind_second_chunk]
  exact ⟨opened_pastFirstByte, rfl, rfl, rfl,
    congrArg Prod.fst (Reader.readBytes_cached (by decide)),
    congrArg Prod.fst (Reader.readBytes_cached (by decide))⟩

end TraceCapture
