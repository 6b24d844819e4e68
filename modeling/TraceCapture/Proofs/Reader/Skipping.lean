import TraceCapture.Proofs.Reader.Alike

set_option autoImplicit false

namespace TraceCapture

namespace Reader

variable {σ : Type}

theorem available_stepped {r : Reader σ} {n : Nat} (hn : ¬ n ≤ min r.available n) :
    ({ r with cursor := r.cursor + min r.available n } : Reader σ).available = 0 := by
  unfold available at *
  dsimp only
  omega

theorem decompressions_cacheBlock {r : Reader σ} (hcursor : r.cursor = 0) (block : ByteArray)
    (size skip : Nat) :
    (r.cacheBlock block size skip).2.decompressions = r.decompressions ∨
      (r.cacheBlock block size skip).2.decompressions = r.decompressions + 1 ∧
        skip < (r.cacheBlock block size skip).2.available := by
  unfold Reader.cacheBlock
  split
  · next hskip =>
    refine .inr ⟨rfl, ?_⟩
    simpa [available, Bytes.size_fit, hcursor] using hskip
  · exact .inl rfl

section

variable [Source σ]

theorem decompressions_loadChunk (r : Reader σ) (skip : Nat) :
    (r.loadChunk skip).2.decompressions = r.decompressions ∨
      (r.loadChunk skip).2.decompressions = r.decompressions + 1 ∧
        skip < (r.loadChunk skip).2.available := by
  rw [loadChunk_eq]
  unfold settle
  dsimp only
  split
  · exact .inl rfl
  · exact .inl rfl
  · exact .inl rfl
  · split
    · exact .inl rfl
    · exact decompressions_cacheBlock rfl _ _ _

/-- The load that decodes a block is the last one of a skip. -/
theorem decompressions_skipOn (r : Reader σ) (n : Nat) :
    (r.skipOn n).2.decompressions ≤ r.decompressions + 1 := by
  fun_induction Reader.skipOn r n with
  | case1 r n step stepped | case2 r n step stepped => exact Nat.le_succ _
  | case3 r n step stepped hn hr v hload =>
    rename_i ih
    have hdecoded := stepped.decompressions_loadChunk (n - step)
    rw [hload] at hdecoded
    rcases hdecoded with hsame | ⟨hone, hstop⟩
    · rwa [hsame] at ih
    · -- the decoded chunk has more bytes than are left to skip
      rw [skipOn_eq, if_pos (Nat.le_min.mpr ⟨Nat.le_of_lt hstop, Nat.le_refl _⟩)]
      exact Nat.le_of_eq hone
  | case4 r n step stepped hn hr e v | case5 r n step stepped hn hr cause v =>
    rename_i hload
    have hdecoded := stepped.decompressions_loadChunk (n - step)
    rw [hload] at hdecoded
    rcases hdecoded with hsame | ⟨hone, -⟩
    · exact Nat.le_succ_of_le (Nat.le_of_eq hsame)
    · exact Nat.le_of_eq hone

end

variable [LawfulSource σ] {source : σ} {codec : Codec} {file : ByteArray}
  {chunks : List ByteArray} {r r' : Reader σ}

theorem Alike.readOn_stepped {n : Nat} (ha : Alike n r r') (out : ByteArray) :
    ∃ out', out'.size = out.size + min r.available n ∧ r'.readOn (out.size + n) out =
      { r' with cursor := r'.cursor + min r.available n }.readOn (out.size + n) out' := by
  have hread := r'.readOn_step (out.size + n) out
  dsimp only at hread
  rw [Nat.add_sub_cancel_left, ← ha.available_eq] at hread
  refine ⟨_, ?_, hread⟩
  rw [ByteArray.size_append, size_extract_cached]
  rw [← ha.available_eq]
  exact Nat.min_le_left _ _

/-- A skip and a read of as many bytes leave readers that are alike. -/
theorem Alike.skipOn_readOn (hd : codec.Decodes file magic.size chunks) {n ahead k : Nat}
    (hcaches : Caches codec file chunks ahead k r) (ha : Alike n r r') (out : ByteArray) :
    ∃ v v' b, r.skipOn n = (.ok (), v) ∧ r'.readOn (out.size + n) out = (.ok b, v') ∧
      Alike 0 v v' := by
  -- the read goes through the same chunks as the skip; `out` are the bytes that it has so far
  fun_induction Reader.skipOn r n generalizing r' ahead k out with
  | case1 r n step =>
    rename_i stepped hn
    obtain ⟨out', hsize, hread⟩ := ha.readOn_stepped out
    refine ⟨stepped, _, out', rfl, ?_, ha.stepped⟩
    rw [hread, readOn_eq, if_pos (by omega)]
  | case2 r n step stepped =>
    rename_i hn hr
    obtain ⟨out', hsize, hread⟩ := ha.readOn_stepped out
    have hempty := available_stepped hn
    rw [ha.stepped.available_eq] at hempty
    refine ⟨stepped, _, out', rfl, ?_, ha.stepped⟩
    rw [hread, readOn_eq, if_neg (by omega), if_pos hempty, if_pos (ha.exhausted_eq ▸ hr)]
  | case3 r n step stepped hn hr v =>
    rename_i hload ih
    obtain ⟨out', hsize, hread⟩ := ha.readOn_stepped out
    have hempty := available_stepped hn
    rw [ha.stepped.available_eq] at hempty
    obtain ⟨hlt, hpos, hat⟩ := hcaches.live hr
    obtain ⟨u, v', hu, hv', halike, hnext⟩ := alike_loadChunk_entry (r := stepped) hd hlt
      hcaches.codec_eq (Bool.eq_false_iff.mpr hr) hpos hat ha.stepped.same (Nat.zero_le (n - step))
    rw [hload] at hu
    cases hu
    have hleft : out'.size + (n - step) = out.size + n := by omega
    obtain ⟨w, w', b, hw, hw', hdone⟩ := ih hnext halike out'
    rw [hleft] at hw'
    refine ⟨w, w', b, hw, ?_, hdone⟩
    rw [hread, readOn_eq, if_neg (by omega), if_pos hempty, if_neg (ha.exhausted_eq ▸ hr), hv']
    exact hw'
  | case4 r n step stepped hn hr e | case5 r n step stepped hn hr cause =>
    rename_i hload
    obtain ⟨hlt, hpos, hat⟩ := hcaches.live hr
    obtain ⟨u, v', hu, -⟩ := alike_loadChunk_entry (r := stepped) hd hlt hcaches.codec_eq
      (Bool.eq_false_iff.mpr hr) hpos hat ha.stepped.same (Nat.zero_le (n - step))
    rw [hload] at hu
    cases hu

/-- The readers that reads, skips and seeks to offsets told by such readers lead to. -/
inductive Roaming (source : σ) (codec : Codec) : Reader σ → Prop where
  | start {r : Reader σ} (h : Reader.start source codec = .ok r) : Roaming source codec r
  | read {r : Reader σ} (call : ReadCall) (h : Roaming source codec r) :
      Roaming source codec (call.perform r).2
  | skip {r : Reader σ} (n : Nat) (h : Roaming source codec r) : Roaming source codec (r.skip n).2
  | seek {r told : Reader σ} (h : Roaming source codec r) (htold : Roaming source codec told) :
      Roaming source codec (r.setCurrentOffset told.currentOffset).2

theorem Roaming.opened (h : Roaming source codec r) : Opened source codec r := by
  induction h with
  | start h => exact .start h
  | read call _ ih => exact .call (.read call) ih
  | skip n _ ih => exact .call (.skip n) ih
  | @seek r told _ _ ih _ => exact .call (.seek told.currentOffset) ih

theorem Roaming.standsAt (hd : codec.Decodes file magic.size chunks)
    (hmagic : file.extract 0 magic.size = magic) (hs : Source.Seekable source) {i : Nat}
    (hat : Source.At source file i) (h : Roaming source codec r) :
    ∃ p, StandsAt codec file chunks r p := by
  induction h with
  | start h => exact ⟨0, start_standsAt hd hmagic hat h⟩
  | read call _ ih =>
    obtain ⟨p, hp⟩ := ih
    exact ⟨_, hp.read hd call⟩
  | skip n _ ih =>
    obtain ⟨p, hp⟩ := ih
    exact ⟨_, hp.skip hd n⟩
  | seek h _ _ ih =>
    obtain ⟨p, hp⟩ := ih
    obtain ⟨v, hv, hstands⟩ := hp.resume hd hmagic hs hat.contents_eq h.opened.over
    rw [hv]
    exact ⟨p, hstands⟩

theorem StandsAt.known {p : Nat} (h : StandsAt codec file chunks r p) :
    Known codec file chunks r.currentOffset.chunk := by
  obtain ⟨k, hcaches, -⟩ := h
  exact .inr ⟨k, hcaches.le_length, hcaches.chunk_eq⟩

theorem StandsAt.skip_readBytes (hd : codec.Decodes file magic.size chunks) {p : Nat}
    (h : StandsAt codec file chunks r p) (n : Nat) :
    ∃ v v' b, r.skip n = (.ok (!r.endOfData), v) ∧ r.readBytes n = (.ok b, v') ∧ Alike 0 v v' := by
  obtain ⟨k, hcaches, -⟩ := h
  cases hend : r.endOfData with
  | true =>
    have hboth := hend
    simp only [endOfData, Bool.and_eq_true, beq_iff_eq] at hboth
    refine ⟨r, r, .empty, ?_, ?_, .refl r⟩
    · rw [Reader.skip, if_pos hend]
      rfl
    · rw [readBytes, readOn_eq]
      split
      · rfl
      · rw [if_pos hboth.2, if_pos hboth.1]
  | false =>
    obtain ⟨v, v', b, hv, hv', halike⟩ :=
      ((Alike.refl r).mono (Nat.zero_le n)).skipOn_readOn hd hcaches .empty
    rw [ByteArray.size_empty, Nat.zero_add] at hv'
    refine ⟨v, v', b, ?_, hv', halike⟩
    rw [Reader.skip, hend, hv]
    rfl

end Reader

open Reader (Known Roaming)

/-- Of a file whose entries decode, a reader that was brought anywhere in it comes by a skip to the
byte that it comes to by a read, and from there on nothing tells the two apart. -/
theorem skip_agrees_with_reading :
    (∀ (σ : Type) [LawfulSource σ] (source : σ) (codec : Codec) (file : ByteArray)
      (chunks : List ByteArray), file.extract 0 magic.size = magic →
      codec.Decodes file magic.size chunks → Source.FaultFree source → Source.Seekable source →
      LawfulSource.contents source = file → ∀ r, Roaming source codec r →
        let data := Bytes.concat chunks
        Known codec file chunks r.currentOffset.chunk ∧ ∃ p ≤ data.size,
          r.Delivers (data.extract p data.size) ∧ ∀ n, ∃ skipped read,
            r.skip n = (.ok (!r.endOfData), skipped) ∧
            r.readBytes n = (.ok ((data.extract p data.size).extract 0 n), read) ∧
            skipped.Delivers (data.extract (min (p + n) data.size) data.size) ∧
            read.Delivers (data.extract (min (p + n) data.size) data.size) ∧
            skipped.view = read.view ∧
            ∀ calls, (∀ call ∈ calls, call.Within (Known codec file chunks)) →
              skipped.observe calls = read.observe calls) ∧
    ∀ (σ : Type) [Source σ] (r : Reader σ) (n : Nat),
      (r.skip n).2.decompressions ≤ r.decompressions + 1 := by
  refine ⟨?_, fun σ _ r n => ?_⟩
  · intro σ _ source codec file chunks hmagic hd hfree hs hc r hr data
    obtain ⟨p, hp⟩ := hr.standsAt hd hmagic hs ⟨hfree, hc, rfl⟩
    refine ⟨hp.known, p, hp.le_size, hp.delivers hd, fun n => ?_⟩
    obtain ⟨skipped, read, b, hskip, hread, halike⟩ := hp.skip_readBytes hd n
    have hskipped := hp.skip hd n
    have hafter := hp.read hd (.bytes n)
    have hopened := (hr.skip n).opened
    obtain ⟨⟨r', hr', -⟩, -⟩ :=
      ((Reader.feeds_standsAt hd).perform ⟨p, hp.le_size, hp, rfl⟩ (.bytes n)).imp_left
        fun hok => hok (.inr rfl)
    have hperform : (Reader.ReadCall.bytes n).perform r = r.readBytes n := rfl
    rw [hperform, hread] at hr' hafter
    rw [hskip] at hskipped hopened
    cases hr'
    refine ⟨skipped, read, hskip, hread, hskipped.delivers hd, hafter.delivers hd,
      halike.view_eq, fun calls => ?_⟩
    obtain ⟨k, hcaches, -⟩ := hskipped
    exact halike.observe_eq hd hmagic hs hc ⟨hopened.over, .inr ⟨0, k, hcaches⟩⟩ calls
  · unfold Reader.skip
    split
    · exact Nat.le_succ _
    · exact r.decompressions_skipOn n

/-- A reader that skips both chunks to their end, the second without decoding it, and one that reads
them: both go back to the second byte. -/
theorem skip_agrees_with_reading_to_the_end :
    ∃ r skipped read,
      Reader.start (MemorySource.new twoChunks .none) (.lz4 .checked) = .ok r ∧
      r.skip 3 = (.ok true, skipped) ∧ r.readBytes 3 = (.ok ⟨#[104, 105, 33]⟩, read) ∧
      skipped.view = read.view ∧
      skipped.observe [.seek ⟨2, 1⟩, .read (.bytes 2)] =
        read.observe [.seek ⟨2, 1⟩, .read (.bytes 2)] ∧
      skipped.decompressions ≤ r.decompressions + 1 := by
  have hsound : (MemorySource.new twoChunks .none).Sound := MemorySource.sound_new (by decide)
  obtain ⟨r, hstart, hholds⟩ :=
    Reader.start_holds ⟨hsound.faultFree, rfl, rfl⟩ rfl decodes_twoChunks
  obtain ⟨v, hv, -⟩ := (Reader.feeds_holds.perform hholds (.bytes 3)).1 (.inr rfl)
  have hbytes : (r.readBytes 3).1 = .ok ⟨#[104, 105, 33]⟩ := congrArg Prod.fst hv
  have hmore : r.endOfData = false := by
    refine Bool.eq_false_iff.mpr fun hend => ?_
    simp only [Reader.endOfData, Bool.and_eq_true, beq_iff_eq] at hend
    have hrest := (Reader.feeds_holds.finished hholds hend.2 hend.1).1
    exact absurd (congrArg ByteArray.size hrest) (by decide)
  obtain ⟨hagree, hdecoded⟩ := skip_agrees_with_reading
  obtain ⟨-, p, -, -, hboth⟩ := hagree MemorySource _ (.lz4 .checked) twoChunks _ rfl
    decodes_twoChunks hsound.faultFree hsound.seekable rfl r (.start hstart)
  obtain ⟨skipped, read, hskip, hread, -, -, hview, hobserve⟩ := hboth 3
  have hcalls := hobserve [.seek ⟨2, 1⟩, .read (.bytes 2)] fun call _ => by
    cases call with
    | read | skip => trivial
    | seek => exact .inl (Codec.steady_lz4 _)
  have hone := hdecoded MemorySource r 3
  rw [hskip] at hone
  rw [hmore] at hskip
  rw [hread] at hbytes
  exact ⟨r, skipped, read, hstart, hskip, hread.trans (congrArg (·, read) hbytes), hview, hcalls,
    hone⟩

end TraceCapture
