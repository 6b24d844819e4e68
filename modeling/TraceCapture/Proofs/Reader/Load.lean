import TraceCapture.Proofs.Reader.Fetching
import TraceCapture.Proofs.Stream.LawfulSource

set_option autoImplicit false

namespace TraceCapture.Reader

variable {σ : Type} [LawfulSource σ]

def behind (r : Reader σ) (inner : σ) (e : Entry) : Reader σ :=
  { r.between inner with bufferSize := e.block.size, position := e.stop }

theorem fetched_ends {r : Reader σ} {file : ByteArray} (hat : Source.At r.inner file r.position)
    (hends : Entry.Ends r.codec file r.position) :
    ∃ length? inner, r.fetched = (.ends length?, inner) := by
  unfold Entry.Ends at hends
  unfold fetched
  by_cases hin : r.position + lengthSize ≤ file.size
  · obtain ⟨inner, hread, hat'⟩ := Source.readExact?_inside hat hin
    split at hends
    · next hn =>
      rw [Bytes.toU32?, dif_pos (by rw [ByteArray.size_extract]; unfold lengthSize at *; omega)]
        at hn
      cases hn
    · next n hn =>
      by_cases h0 : n = 0
      · refine ⟨none, inner, ?_⟩
        unfold Source.fetch
        simp only [hread, hn, Option.getD_some]
        exact if_pos h0
      · obtain hn0 | ⟨hle, hlt⟩ := hends
        · exact absurd hn0 h0
        · have hpos := Nat.pos_of_ne_zero h0
          obtain ⟨inner', j, hread', -⟩ := Source.readExact?_outside hat' hpos hlt
          rw [Source.fetch_of_length hread hn hpos hle, Source.fetchBlock, hread']
          exact ⟨some n, inner', rfl⟩
  · obtain ⟨inner, j, hread, -⟩ :=
      Source.readExact?_outside hat (by decide) (Nat.lt_of_not_le hin)
    rw [Source.fetch, hread]
    exact ⟨none, inner, rfl⟩

theorem loadChunk_ends {r : Reader σ} {file : ByteArray} (hat : Source.At r.inner file r.position)
    (hends : Entry.Ends r.codec file r.position) (skip : Nat) :
    ∃ inner bufferSize log, r.loadChunk skip = (.ok (), { r with
      inner, bufferSize, log, chunk := r.position, cursor := 0, cache := .empty, exhausted := true,
      position := r.fileLength }) := by
  obtain ⟨length?, inner, hfetched⟩ := fetched_ends hat hends
  rw [loadChunk_eq, hfetched]
  cases length? <;> exact ⟨inner, _, _, rfl⟩

/-- An entry whose length no block has is rejected before its block is read. -/
theorem loadChunk_tooLong {r : Reader σ} {file : ByteArray} {cause : TraceError}
    (hat : Source.At r.inner file r.position)
    (he : r.codec.entryAt? file r.position = .error cause) (skip : Nat) :
    ∃ inner, Source.At inner file (r.position + lengthSize) ∧
      r.loadChunk skip = (.error cause, r.between inner) := by
  unfold Codec.entryAt? at he
  split at he
  · cases he
  · next n hn =>
    split at he
    · next hmax =>
      cases he
      obtain ⟨inner, hread, hat'⟩ := Source.readExact?_inside hat (Entry.toU32?_eq_some hn)
      refine ⟨inner, hat', ?_⟩
      have hfetched : r.fetched = (.fails (.corrupt .chunkTooLong) none, inner) := by
        unfold fetched Source.fetch
        simp only [hread, hn, Option.getD_some]
        rw [if_neg (Nat.ne_of_gt (Nat.zero_lt_of_lt hmax)), if_pos hmax]
      rw [loadChunk_eq, hfetched]
      rfl
    · cases he

theorem loadChunk_found {r : Reader σ} {file : ByteArray} {e : Entry}
    (hat : Source.At r.inner file r.position)
    (he : r.codec.entryAt? file r.position = .ok (some e)) (skip : Nat) :
    ∃ inner, Source.At inner file e.stop ∧ r.loadChunk skip =
      match r.codec.announced e.block with
      | .error cause => (.error cause, r.behind inner e)
      | .ok size => (r.behind inner e).cacheBlock e.block size skip := by
  obtain ⟨hat?, hmax⟩ := Codec.entryAt?_eq_some.mp he
  obtain ⟨hstart, hlen, hne, hin, hblock⟩ := Entry.of_at? hat?
  have hstop : r.position + lengthSize + e.block.size = e.stop := by rw [Entry.stop, hstart]
  obtain ⟨inner, hread, hat'⟩ := Source.readExact?_inside hat (Entry.toU32?_eq_some hlen)
  obtain ⟨inner', hread', hat''⟩ := Source.readExact?_inside hat' hin
  rw [← hblock] at hread'
  refine ⟨inner', hstop ▸ hat'', ?_⟩
  have hfetched : r.fetched = (.block e.block.size e.block, inner') :=
    Source.fetch_of_reads hread hlen (Nat.pos_of_ne_zero hne) hmax hread'
  rw [loadChunk_eq, hfetched, behind, ← hstop]
  rfl

theorem loadChunk_decoding {r : Reader σ} {file : ByteArray} {e : Entry} {size : Nat}
    (hat : Source.At r.inner file r.position)
    (he : r.codec.entryAt? file r.position = .ok (some e))
    (hsize : r.codec.announced e.block = .ok size) (hpos : 0 < size) :
    (r.loadChunk 0).1 = (r.codec.decompress r.decompressions e.block size).ending := by
  obtain ⟨inner, -, hload⟩ := loadChunk_found hat he 0
  rw [hload, hsize]
  dsimp only
  rw [cacheBlock, if_pos hpos]
  rfl

/-- A chunk that a caller stops in is cached; zeros stand for one that is stepped over in full. -/
theorem loadChunk_entry {r : Reader σ} {file chunk : ByteArray} {e : Entry}
    (hat : Source.At r.inner file r.position) (he : Entry.at? file r.position = some e)
    (hc : r.codec.Encodes e.block chunk) (skip : Nat) :
    ∃ inner, Source.At inner file e.stop ∧ r.loadChunk skip = (.ok (), { r with
      inner, chunk := r.position, cursor := 0, bufferSize := e.block.size,
      cache := if skip < chunk.size then chunk else Bytes.zeros chunk.size,
      position := e.stop,
      decompressions := r.decompressions + if skip < chunk.size then 1 else 0 }) := by
  obtain ⟨inner, hat', hload⟩ :=
    loadChunk_found hat (Codec.entryAt?_eq_some.mpr ⟨he, hc.block_le⟩) skip
  refine ⟨inner, hat', ?_⟩
  rw [hload, hc.announced_eq]
  dsimp only [behind, between]
  rw [cacheBlock]
  by_cases hskip : skip < chunk.size
  · simp only [if_pos hskip, hc.decompress_eq _ (Nat.zero_lt_of_lt hskip), Bytes.fit_size]
  · simp only [if_neg hskip, Nat.add_zero]

end TraceCapture.Reader
