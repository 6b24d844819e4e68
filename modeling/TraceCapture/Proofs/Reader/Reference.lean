import TraceCapture.Proofs.Block.Lz4.Lawful
import TraceCapture.Proofs.Reader.Stream
import TraceCapture.Proofs.Stream.Memory
import TraceCapture.Proofs.Trace.Grammar

set_option autoImplicit false

namespace TraceCapture

namespace Reader

variable {σ : Type} [LawfulSource σ]

def loaded (r : Reader σ) (inner : σ) (e : Entry) (chunk : ByteArray) : Reader σ :=
  { r.behind inner e with
    cache := chunk
    decompressions := if chunk.size = 0 then r.decompressions else r.decompressions + 1 }

theorem loadChunk_chunkOf {r : Reader σ} {file : ByteArray} {e : Entry}
    (hat : Source.At r.inner file r.position)
    (he : r.codec.entryAt? file r.position = .ok (some e)) :
    ∃ inner, Source.At inner file e.stop ∧
      (r.loadChunk 0).1 = (r.codec.chunkOf r.decompressions e.block).map (fun _ => ()) ∧
      ∀ chunk, r.codec.chunkOf r.decompressions e.block = .ok chunk →
        (r.loadChunk 0).2 = r.loaded inner e chunk := by
  obtain ⟨inner, hat', hload⟩ := loadChunk_found hat he 0
  refine ⟨inner, hat', ?_⟩
  rw [hload, Codec.chunkOf]
  cases r.codec.announced e.block with
  | error cause =>
    refine ⟨rfl, fun chunk h => ?_⟩
    cases h
  | ok size =>
    dsimp only
    rw [cacheBlock]
    by_cases h0 : size = 0
    · rw [if_neg (by omega), if_pos h0]
      refine ⟨rfl, fun chunk h => ?_⟩
      cases h
      have hzeros : Bytes.zeros size = .empty :=
        ByteArray.size_eq_zero_iff.mp (by rw [Bytes.size_zeros, h0])
      simp [loaded, behind, between, hzeros]
    · rw [if_pos (Nat.pos_of_ne_zero h0), if_neg h0]
      dsimp only [behind, between]
      cases hd : (r.codec.decompress r.decompressions e.block size).ending with
      | error cause | panicked v =>
        refine ⟨rfl, fun chunk h => ?_⟩
        cases h
      | ok =>
        refine ⟨rfl, fun chunk h => ?_⟩
        cases h
        simp [loaded, behind, between, h0]

/-- What the reader has not delivered yet, and how that ends: the rest of the cached chunk and what
the entries behind it decode to. -/
def Yields (ending : Outcome TraceError Unit) (r : Reader σ) (rest : ByteArray) : Prop :=
  (r.exhausted = true ∧ rest = r.cache.extract r.cursor r.cache.size ∧ ending = .ok ()) ∨
    (r.exhausted = false ∧ ∃ file, Source.At r.inner file r.position ∧
      rest = r.cache.extract r.cursor r.cache.size ++
        Bytes.concat (r.codec.decodeFrom file r.decompressions r.position).chunks ∧
      ending = (r.codec.decodeFrom file r.decompressions r.position).ending)

/-- A reader that stands before entries loads the next chunk of the walk, or ends like it. -/
theorem yields_loadChunk {r : Reader σ} {file : ByteArray} {d : Decoded}
    (hex : r.exhausted = false) (hat : Source.At r.inner file r.position)
    (hd : r.codec.decodeFrom file r.decompressions r.position = d) :
    ((d.chunks = [] → d.ending = .ok ()) ∧
      ∃ r', r.loadChunk 0 = (.ok (), r') ∧ Yields d.ending r' (Bytes.concat d.chunks)) ∨
    d.chunks = [] ∧ d.ending ≠ .ok () ∧ (r.loadChunk 0).1 = d.ending := by
  subst hd
  cases he : r.codec.entryAt? file r.position with
  | error cause =>
    obtain ⟨inner, -, hload⟩ := loadChunk_tooLong hat he 0
    rw [Codec.decodeFrom_tooLong he, hload]
    exact .inr ⟨rfl, nofun, rfl⟩
  | ok found =>
    cases found with
    | none =>
      obtain ⟨inner, bufferSize, log, hload⟩ := loadChunk_ends hat (Codec.entryAt?_eq_none.mp he) 0
      rw [Codec.decodeFrom_ends he, hload]
      exact .inl ⟨fun _ => rfl, _, rfl, .inl ⟨rfl, rfl, rfl⟩⟩
    | some e =>
      obtain ⟨inner, hat', hout, hnext⟩ := loadChunk_chunkOf hat he
      cases hc : r.codec.chunkOf r.decompressions e.block with
      | ok chunk =>
        rw [Codec.decodeFrom_chunk he hc]
        rw [hc] at hout
        refine .inl ⟨nofun, r.loaded inner e chunk, Prod.ext hout (hnext chunk hc), ?_⟩
        refine .inr ⟨hex, file, hat', ?_, rfl⟩
        dsimp only [loaded, behind, between]
        rw [ByteArray.extract_zero_size]
        rfl
      | error cause | panicked v =>
        rw [Codec.decodeFrom_rejected he (by simp [hc]), hout, hc]
        exact .inr ⟨rfl, nofun, rfl⟩

theorem feeds_yields (ending : Outcome TraceError Unit) :
    Feeds (Yields (σ := σ) ending) ending where
  step := by
    rintro r rest k (⟨hex, rfl, hend⟩ | ⟨hex, file, hat, rfl, hend⟩) hk
    · obtain ⟨hrest, hpiece⟩ := extract_step hk .empty
      rw [ByteArray.append_empty] at hrest hpiece
      rw [ByteArray.append_empty] at hrest
      exact ⟨.inl ⟨hex, hrest, hend⟩, hpiece⟩
    · obtain ⟨hrest, hpiece⟩ := extract_step hk
        (Bytes.concat (r.codec.decodeFrom file r.decompressions r.position).chunks)
      exact ⟨.inr ⟨hex, file, hat, hrest, hend⟩, hpiece⟩
  finished := by
    rintro r rest (⟨-, rfl, hend⟩ | ⟨hfalse, -⟩) h0 hex
    · exact ⟨extract_cursor_of_available_eq_zero h0, hend⟩
    · rw [hex] at hfalse
      cases hfalse
  load := by
    rintro r rest (⟨htrue, -⟩ | ⟨-, file, hat, rfl, rfl⟩) h0 hex
    · rw [hex] at htrue
      cases htrue
    · rw [extract_cursor_of_available_eq_zero h0, ByteArray.empty_append]
      rcases yields_loadChunk hex hat rfl with ⟨-, hnext⟩ | ⟨hnil, hne, hout⟩
      · exact .inl hnext
      · rw [hnil]
        exact .inr ⟨rfl, hne, hout⟩

/-- The reader delivers `data` and then fails: calls get the next bytes as long as they ask for no
more than these, and the first call that asks for more ends with the cause. -/
def DeliversUntil (r : Reader σ) (data : ByteArray) (cause : Outcome TraceError Unit) : Prop :=
  ∀ calls : List ReadCall,
    ((calls.map ReadCall.size).sum ≤ data.size → ∃ r',
      r.deliver calls = (.ok (Bytes.cut data (calls.map ReadCall.size)), r')) ∧
    (data.size < (calls.map ReadCall.size).sum → (r.deliver calls).1 = cause.map fun _ => [])

end Reader

/-- Every source of a file, whatever it is, reads as the walk over the file says. -/
theorem reader_follows_grammar :
    (∀ p call block room out, (Codec.lz4 p).decompress call block room = ⟨out, .ok ()⟩ →
      out.size = room) ∧
    ∀ (σ : Type) [LawfulSource σ] (source : σ) (codec : Codec) (file : ByteArray),
      Source.FaultFree source → LawfulSource.contents source = file →
      let d := codec.decodeFrom file 0 magic.size
      (file.extract 0 magic.size ≠ magic → Reader.start source codec = .error .invalidMagic) ∧
      (file.extract 0 magic.size = magic →
        (d.ending = .ok () → ∃ r, Reader.start source codec = .ok r ∧
          r.Delivers (Bytes.concat d.chunks)) ∧
        (d.ending ≠ .ok () → d.chunks = [] →
          (Reader.start source codec).map (fun _ => ()) = d.ending) ∧
        (d.ending ≠ .ok () → d.chunks ≠ [] → ∃ r, Reader.start source codec = .ok r ∧
          r.DeliversUntil (Bytes.concat d.chunks) d.ending)) := by
  refine ⟨fun p call block room out h => Lz4.size_of_decompress h, ?_⟩
  intro σ _ source codec file hs hc d
  obtain ⟨hbad, hgood⟩ := Reader.start_eq ⟨hs, hc, rfl⟩ codec
  refine ⟨hbad, fun hmagic => ?_⟩
  obtain ⟨inner, length, hat, hstart⟩ := hgood hmagic
  have hload := Reader.yields_loadChunk (r := Reader.fresh inner codec length) (d := d) rfl hat rfl
  have hnext : ∀ r', (Reader.fresh inner codec length).loadChunk 0 = (.ok (), r') →
      Reader.start source codec = .ok r' := by
    intro r' h
    rw [hstart, h]
    rfl
  refine ⟨fun hend => ?_, fun hne hnil => ?_, fun hne hchunks => ?_⟩
  · rcases hload with ⟨-, r, hr, hyields⟩ | ⟨-, hne, -⟩
    · rw [hend] at hyields
      exact ⟨r, hnext r hr, (Reader.feeds_yields (.ok ())).delivers hyields⟩
    · exact absurd hend hne
  · rcases hload with ⟨hend, -⟩ | ⟨-, -, hout⟩
    · exact absurd (hend hnil) hne
    · rw [hstart, ← hout]
      generalize (Reader.fresh inner codec length).loadChunk 0 = r
      obtain ⟨o, r⟩ := r
      cases o <;> rfl
  · rcases hload with ⟨-, r, hr, hyields⟩ | ⟨hnil, -⟩
    · refine ⟨r, hnext r hr, fun calls => ?_⟩
      obtain ⟨hok, hfail⟩ := (Reader.feeds_yields d.ending).deliver hyields calls
      refine ⟨fun hle => ?_, fun hlt => hfail hlt hne⟩
      obtain ⟨r', hr', -⟩ := hok (.inl hle)
      exact ⟨r', hr'⟩
    · exact absurd hnil hchunks

def shortBlockFile : ByteArray :=
  ⟨#[97, 116, 7, 0, 0, 0, 2, 0, 0, 0, 32, 104, 105, 1, 0, 0, 0, 7]⟩

theorem decodeFrom_shortBlockFile :
    (Codec.lz4 .checked).decodeFrom shortBlockFile 0 magic.size =
      ⟨[⟨#[104, 105]⟩], .error (.corrupt .blockWithoutSize)⟩ := by
  with_unfolding_all rfl

theorem reader_follows_grammar_to_a_short_block :
    ∃ r, Reader.start (MemorySource.new shortBlockFile ⟨true, some 1, Word.max, none, none⟩)
        (.lz4 .checked) = .ok r ∧
      r.DeliversUntil ⟨#[104, 105]⟩ (.error (.corrupt .blockWithoutSize)) := by
  have hsound : (MemorySource.new shortBlockFile ⟨true, some 1, Word.max, none, none⟩).Sound := by
    refine .new (by decide) ⟨?_, rfl, rfl⟩
    rintro k ⟨⟩
    decide
  obtain ⟨-, hgood⟩ := reader_follows_grammar.2 MemorySource
    (MemorySource.new shortBlockFile ⟨true, some 1, Word.max, none, none⟩) (.lz4 .checked)
    shortBlockFile hsound.faultFree rfl
  obtain ⟨-, -, hread⟩ := hgood rfl
  rw [decodeFrom_shortBlockFile] at hread
  exact hread (by simp) (by simp)

end TraceCapture
