import TraceCapture.Proofs.Reader.Reference
import TraceCapture.Proofs.Trace.Places

set_option autoImplicit false

namespace TraceCapture

/-- The offset names the byte at `p` of what the first entries of a file hold. -/
def Offset.Names (file : ByteArray) (chunks : List ByteArray) (o : Offset) (p : Nat) : Prop :=
  ∃ k ≤ chunks.length, o.chunk = Entry.after file magic.size k ∧
    o.within ≤ (chunks.getD k .empty).size ∧ p = Bytes.startOf chunks k + o.within

section

variable {codec : Codec} {file : ByteArray}

theorem Codec.after_lt_of_decodeFrom {call i k : Nat} {chunks : List ByteArray}
    {ending : Outcome TraceError Unit} (h : codec.decodeFrom file call i = ⟨chunks, ending⟩)
    (hk : k < chunks.length) : Entry.after file i k < Entry.after file i (k + 1) := by
  induction chunks generalizing call i k with
  | nil => exact absurd hk (Nat.not_lt_zero k)
  | cons chunk chunks ih =>
    obtain ⟨e, he, -, hrest⟩ := decodeFrom_eq_cons h
    obtain ⟨hat, -⟩ := entryAt?_eq_some.mp he
    have hafter : ∀ n, Entry.after file i (n + 1) = Entry.after file e.stop n := by
      intro n
      rw [Entry.after, hat]
    cases k with
    | zero =>
      rw [hafter]
      exact (Entry.stop_le_size hat).1
    | succ k =>
      rw [hafter, hafter]
      exact ih hrest (Nat.lt_of_succ_lt_succ hk)

theorem Codec.after_lt_after {call i j k : Nat} {d : Decoded}
    (h : codec.decodeFrom file call i = d) (hjk : j < k) (hk : k ≤ d.chunks.length) :
    Entry.after file i j < Entry.after file i k := by
  induction k with
  | zero => exact absurd hjk (Nat.not_lt_zero j)
  | succ k ih =>
    have hlast : Entry.after file i k < Entry.after file i (k + 1) :=
      after_lt_of_decodeFrom h hk
    rcases Nat.lt_succ_iff_lt_or_eq.mp hjk with hlt | rfl
    · exact Nat.lt_trans (ih hlt (Nat.le_of_succ_le hk)) hlast
    · exact hlast

/-- An offset names one byte. -/
theorem Offset.Names.unique {o : Offset} {call p q : Nat} {d : Decoded}
    (hd : codec.decodeFrom file call magic.size = d) (hp : o.Names file d.chunks p)
    (hq : o.Names file d.chunks q) : p = q := by
  obtain ⟨j, hj, hchunk, -, rfl⟩ := hp
  obtain ⟨k, hk, hchunk', -, rfl⟩ := hq
  rcases Nat.lt_trichotomy j k with hlt | rfl | hlt
  · have hne := Codec.after_lt_after hd hlt hk
    omega
  · rfl
  · have hne := Codec.after_lt_after hd hlt hj
    omega

end

namespace Reader

variable {σ : Type}

/-- A read that fails leaves the reader that its last load leaves. -/
theorem Feeds.readOn_failed [Source σ] {P : Reader σ → ByteArray → Prop}
    {ending : Outcome TraceError Unit} (hP : Feeds P ending) (hne : ending ≠ .ok ())
    {r : Reader σ} {rest : ByteArray} (h : P r rest) {n : Nat} {out : ByteArray}
    (hlt : rest.size < n - out.size) :
    ∃ u, P u .empty ∧ u.exhausted = false ∧ (u.loadChunk 0).1 = ending ∧
      r.readOn n out = (ending.map fun _ => .empty, (u.loadChunk 0).2) := by
  fun_induction Reader.readOn r n out generalizing rest with
  | case1 r out hn => omega
  | case2 r out hn h0 hr => exact absurd (hP.finished h h0 hr).2 hne
  | case3 r out hn h0 hr v hload ih =>
    rcases hP.load h h0 (Bool.eq_false_iff.mpr hr) with ⟨u, hu, hnext⟩ | ⟨-, -, hout⟩
    · rw [hload] at hu
      cases hu
      exact ih hnext hlt
    · rw [hload] at hout
      exact absurd hout.symm hne
  | case4 r out hn h0 hr e v hload | case5 r out hn h0 hr cause v hload =>
    rcases hP.load h h0 (Bool.eq_false_iff.mpr hr) with ⟨u, hu, -⟩ | ⟨rfl, -, hout⟩
    · rw [hload] at hu
      cases hu
    · refine ⟨r, h, Bool.eq_false_iff.mpr hr, hout, ?_⟩
      rw [← hout, hload]
      rfl
  | case6 r out hn h0 stop =>
    rename_i ih
    obtain ⟨hnext, hpiece⟩ := hP.step h (Nat.min_le_left r.available (n - out.size))
    have htaken := size_extract_cached (Nat.min_le_left r.available (n - out.size))
    have hle := hP.available_le h
    apply ih hnext
    rw [ByteArray.size_append, htaken, ByteArray.size_extract, Nat.min_self]
    omega

section

variable [LawfulSource σ]

/-- The reader has loaded the chunk that follows `k` others, and the walk over the file goes on
behind it. -/
structure Underway (codec : Codec) (file : ByteArray) (d : Decoded) (k : Nat) (r : Reader σ) :
    Prop where
  lt : k < d.chunks.length
  codec_eq : r.codec = codec
  chunk_eq : r.chunk = Entry.after file magic.size k
  cache_eq : r.cache = d.chunks.getD k .empty
  cursor_le : r.cursor ≤ r.cache.size
  exhausted_eq : r.exhausted = false
  position_eq : r.position = Entry.after file magic.size (k + 1)
  at_position : Source.At r.inner file r.position
  walk : codec.decodeFrom file r.decompressions r.position = ⟨d.chunks.drop (k + 1), d.ending⟩

def ComesTo (codec : Codec) (file : ByteArray) (d : Decoded) (r : Reader σ) (p : Nat) : Prop :=
  ∃ k, Underway codec file d k r ∧ p = Bytes.startOf d.chunks k + r.cursor

variable {source : σ} {codec : Codec} {file : ByteArray} {d : Decoded} {k p : Nat} {r : Reader σ}

theorem underway_loadChunk (hk : k < d.chunks.length) (hcodec : r.codec = codec)
    (hex : r.exhausted = false) (hpos : r.position = Entry.after file magic.size k)
    (hat : Source.At r.inner file r.position)
    (hwalk : codec.decodeFrom file r.decompressions r.position = ⟨d.chunks.drop k, d.ending⟩) :
    ∃ v, r.loadChunk 0 = (.ok (), v) ∧ Underway codec file d k v ∧ v.cursor = 0 := by
  rw [List.drop_eq_getElem_cons hk] at hwalk
  obtain ⟨e, he, hc, hrest⟩ := Codec.decodeFrom_eq_cons hwalk
  rw [← hcodec] at he hc
  obtain ⟨inner, hat', hout, hnext⟩ := loadChunk_chunkOf hat he
  rw [hc] at hout
  have hstop : e.stop = Entry.after file magic.size (k + 1) := by
    have hentry := (Codec.entryAt?_eq_some.mp he).1
    rw [hpos] at hentry
    exact (Entry.after_succ hentry).symm
  refine ⟨_, Prod.ext hout (hnext _ hc), ?_, rfl⟩
  exact {
    lt := hk
    codec_eq := hcodec
    chunk_eq := hpos
    cache_eq := by simp [hk]
    cursor_le := Nat.zero_le _
    exhausted_eq := hex
    position_eq := hstop
    at_position := hat'
    walk := hrest }

theorem Underway.size_eq (h : Underway codec file d k r) :
    r.cache.size = (d.chunks.getD k .empty).size :=
  congrArg ByteArray.size h.cache_eq

theorem Underway.advance (h : Underway codec file d k r) {n : Nat} (hn : n ≤ r.available) :
    Underway codec file d k { r with cursor := r.cursor + n } :=
  { h with
    cursor_le := by
      have hle := h.cursor_le
      unfold available at hn
      dsimp only
      omega }

theorem ComesTo.le_size (h : ComesTo codec file d r p) : p ≤ (Bytes.concat d.chunks).size := by
  obtain ⟨k, hunder, rfl⟩ := h
  have hle := Bytes.startOf_le d.chunks (k + 1)
  have hcursor := hunder.cursor_le
  rw [hunder.size_eq] at hcursor
  rw [Bytes.startOf_succ] at hle
  omega

theorem ComesTo.names (h : ComesTo codec file d r p) :
    r.currentOffset.Names file d.chunks p := by
  obtain ⟨k, hunder, rfl⟩ := h
  exact ⟨k, Nat.le_of_lt hunder.lt, hunder.chunk_eq, hunder.size_eq ▸ hunder.cursor_le, rfl⟩

theorem feeds_comesTo (hne : d.ending ≠ .ok ()) :
    Feeds (fun (r : Reader σ) rest => ∃ p, ComesTo codec file d r p ∧
      rest = (Bytes.concat d.chunks).extract p (Bytes.concat d.chunks).size) d.ending where
  step := by
    rintro r rest n ⟨p, ⟨k, h, rfl⟩, rfl⟩ hn
    have hrest : (Bytes.concat d.chunks).extract (Bytes.startOf d.chunks k + r.cursor)
        (Bytes.concat d.chunks).size = r.cache.extract r.cursor r.cache.size ++
          Bytes.concat (d.chunks.drop (k + 1)) := by
      rw [Bytes.extract_startOf d.chunks k (h.size_eq ▸ h.cursor_le), h.cache_eq]
    refine ⟨⟨_, ⟨k, h.advance hn, rfl⟩, ?_⟩, ?_⟩
    · rw [Bytes.extract_rest_rest, Nat.add_assoc]
    · rw [hrest]
      exact (extract_step hn _).2
  finished := by
    rintro r rest ⟨p, ⟨k, h, rfl⟩, rfl⟩ h0 hex
    rw [h.exhausted_eq] at hex
    cases hex
  load := by
    rintro r rest ⟨p, ⟨k, h, rfl⟩, rfl⟩ h0 hex
    -- the cached chunk is used up, so the next one starts here
    have hstart : Bytes.startOf d.chunks k + r.cursor = Bytes.startOf d.chunks (k + 1) := by
      have hcursor := h.cursor_le
      have hsize := h.size_eq
      unfold available at h0
      rw [Bytes.startOf_succ]
      omega
    rcases Nat.lt_or_eq_of_le (Nat.succ_le_of_lt h.lt) with hlt | hlast
    · obtain ⟨v, hv, hnext, hcursor⟩ :=
        underway_loadChunk hlt h.codec_eq hex h.position_eq h.at_position h.walk
      refine .inl ⟨v, hv, _, ⟨k + 1, hnext, ?_⟩, rfl⟩
      rw [hcursor]
      exact hstart
    · change k + 1 = d.chunks.length at hlast
      have hwalk := h.walk
      rw [List.drop_of_length_le (Nat.le_of_eq hlast.symm), ← h.codec_eq] at hwalk
      rcases yields_loadChunk hex h.at_position hwalk with ⟨hend, -⟩ | ⟨-, -, hout⟩
      · exact absurd (hend rfl) hne
      · refine .inr ⟨ByteArray.extract_eq_empty_iff.mpr ?_, hne, hout⟩
        rw [hstart, hlast, Bytes.startOf_length]
        omega

/-- Bytes that are there are given. A call for more gets none of them, and the reader is left behind
them all. -/
theorem ComesTo.readBytes (hne : d.ending ≠ .ok ()) (h : ComesTo codec file d r p) (n : Nat) :
    (p + n ≤ (Bytes.concat d.chunks).size → ∃ v,
      r.readBytes n = (.ok ((Bytes.concat d.chunks).extract p (p + n)), v) ∧
        ComesTo codec file d v (p + n)) ∧
    ((Bytes.concat d.chunks).size < p + n → ∃ v,
      r.readBytes n = (d.ending.map fun _ => .empty, v) ∧
        v.currentOffset = ⟨Entry.after file magic.size d.chunks.length, 0⟩) := by
  have hp := h.le_size
  have hleft : ((Bytes.concat d.chunks).extract p (Bytes.concat d.chunks).size).size =
      (Bytes.concat d.chunks).size - p := by
    rw [ByteArray.size_extract, Nat.min_self]
  refine ⟨fun hle => ?_, fun hlt => ?_⟩
  · have hcall : (ReadCall.bytes n).size ≤
        ((Bytes.concat d.chunks).extract p (Bytes.concat d.chunks).size).size := by
      rw [hleft]
      exact Nat.le_sub_of_add_le' hle
    obtain ⟨v, hv, ⟨q, hq, hrest⟩, -⟩ :=
      ((feeds_comesTo hne).perform ⟨p, h, rfl⟩ (.bytes n)).1 (.inl hcall)
    have hpiece : ((Bytes.concat d.chunks).extract p (Bytes.concat d.chunks).size).extract 0 n =
        (Bytes.concat d.chunks).extract p (p + n) := by
      rw [ByteArray.extract_extract, Nat.add_zero, Nat.min_eq_left hle]
    have hsize := congrArg ByteArray.size hrest
    rw [Bytes.extract_rest_rest, ByteArray.size_extract, ByteArray.size_extract] at hsize
    have hq' := hq.le_size
    have hnext : q = p + n := by
      dsimp only [ReadCall.size] at hsize
      omega
    exact ⟨v, hpiece ▸ hv, hnext ▸ hq⟩
  · have hmore : ((Bytes.concat d.chunks).extract p (Bytes.concat d.chunks).size).size <
        n - ByteArray.empty.size := by
      rw [hleft, ByteArray.size_empty]
      omega
    obtain ⟨u, ⟨q, ⟨k, hunder, -⟩, -⟩, hex, hout, hread⟩ :=
      (feeds_comesTo hne).readOn_failed hne ⟨p, h, rfl⟩ hmore
    refine ⟨(u.loadChunk 0).2, hread, ?_⟩
    rw [currentOffset_loadChunk, hunder.position_eq]
    -- a load that fails has no chunk to load
    rcases Nat.lt_or_eq_of_le (Nat.succ_le_of_lt hunder.lt) with hlt | hlast
    · obtain ⟨v, hv, -⟩ := underway_loadChunk hlt hunder.codec_eq hex hunder.position_eq
        hunder.at_position hunder.walk
      rw [hv] at hout
      exact absurd hout.symm hne
    · rw [← hlast]

inductive Gave (source : σ) (codec : Codec) : Reader σ → ByteArray → Prop where
  | start {r : Reader σ} (h : Reader.start source codec = .ok r) : Gave source codec r .empty
  | readBytes {r v : Reader σ} {out b : ByteArray} {n : Nat} (h : Gave source codec r out)
      (hcall : r.readBytes n = (.ok b, v)) : Gave source codec v (out ++ b)
  | read {r v : Reader σ} {out b : ByteArray} {n : Nat} (h : Gave source codec r out)
      (hcall : r.read n = (.ok b, v)) : Gave source codec v (out ++ b)

theorem readBytes_of_read {b : ByteArray} {v : Reader σ} {n : Nat} (h : r.read n = (.ok b, v)) :
    r.readBytes n = (.ok b, v) := by
  unfold Reader.read at h
  generalize r.readBytes n = step at h ⊢
  obtain ⟨_ | _ | _, u⟩ := step <;> cases h
  rfl

theorem start_comesTo {i : Nat} (hat : Source.At source file i)
    (hmagic : file.extract 0 magic.size = magic)
    (hd : codec.decodeFrom file 0 magic.size = d) (hchunks : d.chunks ≠ []) :
    ∃ r, Reader.start source codec = .ok r ∧ ComesTo codec file d r 0 := by
  obtain ⟨inner, length, hinner, hstart⟩ := (start_eq hat codec).2 hmagic
  obtain ⟨r, hr, hunder, hcursor⟩ := underway_loadChunk (k := 0) (r := fresh inner codec length)
    (List.length_pos_iff.mpr hchunks) rfl rfl rfl hinner hd
  refine ⟨r, ?_, 0, hunder, ?_⟩
  · rw [hstart, hr]
    rfl
  · rw [hcursor, Bytes.startOf_zero]

structure HasGiven (codec : Codec) (file : ByteArray) (d : Decoded) (r : Reader σ)
    (out : ByteArray) : Prop where
  comesTo : ComesTo codec file d r out.size
  eq_extract : out = (Bytes.concat d.chunks).extract 0 out.size

theorem HasGiven.readBytes (hne : d.ending ≠ .ok ()) {v : Reader σ} {out b : ByteArray} {n : Nat}
    (h : HasGiven codec file d r out) (hread : r.readBytes n = (.ok b, v)) :
    HasGiven codec file d v (out ++ b) := by
  obtain ⟨hgiven, hfails⟩ := h.comesTo.readBytes hne n
  rcases Nat.lt_or_ge (Bytes.concat d.chunks).size (out.size + n) with hlt | hle
  · obtain ⟨u, hu, -⟩ := hfails hlt
    rw [hread] at hu
    generalize d.ending = ending at hne hu
    cases ending with
    | ok => exact absurd rfl hne
    | error | panicked => cases hu
  · obtain ⟨u, hu, hnext⟩ := hgiven hle
    rw [hread] at hu
    cases hu
    have hsize : (out ++ (Bytes.concat d.chunks).extract out.size (out.size + n)).size =
        out.size + n := by
      rw [ByteArray.size_append, ByteArray.size_extract]
      omega
    have hcat : (Bytes.concat d.chunks).extract 0 out.size ++
        (Bytes.concat d.chunks).extract out.size (out.size + n) =
          (Bytes.concat d.chunks).extract 0 (out.size + n) :=
      (ByteArray.extract_eq_extract_append_extract out.size (Nat.zero_le _)
        (Nat.le_add_right _ _)).symm
    constructor
    · rw [hsize]
      exact hnext
    · rw [hsize, ← hcat, ← h.eq_extract]

theorem Gave.hasGiven {i : Nat} (hat : Source.At source file i)
    (hmagic : file.extract 0 magic.size = magic)
    (hd : codec.decodeFrom file 0 magic.size = d) (hchunks : d.chunks ≠ [])
    (hne : d.ending ≠ .ok ()) {out : ByteArray} (h : Gave source codec r out) :
    HasGiven codec file d r out := by
  induction h with
  | start h =>
    obtain ⟨r, hr, hcomes⟩ := start_comesTo hat hmagic hd hchunks
    rw [h] at hr
    cases hr
    exact ⟨hcomes, ByteArray.extract_same.symm⟩
  | readBytes _ hread ih => exact ih.readBytes hne hread
  | read _ hread ih => exact ih.readBytes hne (readBytes_of_read hread)

end

end Reader

/-- A reader of a file whose first entries decode and whose next entry is rejected gives the bytes
of the first ones to calls that ask for no more. The first call that does gets nothing: it fails
with the cause of the rejection and has used up what was left. The offset then names what comes
behind, which is the first byte that was not given only if all were given before. -/
theorem failing_read_loses_the_rest {σ : Type} [LawfulSource σ] (source : σ) (codec : Codec)
    (file : ByteArray) (hs : Source.FaultFree source) (hc : LawfulSource.contents source = file)
    (hmagic : file.extract 0 magic.size = magic) :
    let d := codec.decodeFrom file 0 magic.size
    let data := Bytes.concat d.chunks
    d.ending ≠ .ok () → d.chunks ≠ [] →
      (∃ r, Reader.start source codec = .ok r) ∧
      ∀ r out, Reader.Gave source codec r out →
        out = data.extract 0 out.size ∧ r.currentOffset.Names file d.chunks out.size ∧
        ∀ n,
          (out.size + n ≤ data.size → ∃ v,
            r.readBytes n = (.ok (data.extract out.size (out.size + n)), v) ∧
            r.read n = (.ok (data.extract out.size (out.size + n)), v)) ∧
          (data.size < out.size + n → ∃ v,
            r.readBytes n = (d.ending.map fun _ => .empty, v) ∧
            r.read n = ((d.ending.map fun _ => .empty).mapError TraceError.toIo, v) ∧
            v.currentOffset = ⟨Entry.after file magic.size d.chunks.length, 0⟩ ∧
            v.currentOffset.Names file d.chunks data.size ∧
            (v.currentOffset.Names file d.chunks out.size ↔ out = data)) := by
  intro d data hne hchunks
  have hat : Source.At source file (LawfulSource.position source) := ⟨hs, hc, rfl⟩
  obtain ⟨r, hr, -⟩ := Reader.start_comesTo hat hmagic rfl hchunks
  refine ⟨⟨r, hr⟩, fun r out h => ?_⟩
  obtain ⟨hcomes, hout⟩ := h.hasGiven hat hmagic rfl hchunks hne
  refine ⟨hout, hcomes.names, fun n => ?_⟩
  obtain ⟨hgiven, hfails⟩ := hcomes.readBytes hne n
  refine ⟨fun hle => ?_, fun hlt => ?_⟩
  · obtain ⟨v, hv, -⟩ := hgiven hle
    refine ⟨v, hv, ?_⟩
    rw [Reader.read, hv]
    rfl
  · obtain ⟨v, hv, hoffset⟩ := hfails hlt
    have hnames : v.currentOffset.Names file d.chunks data.size := by
      refine ⟨d.chunks.length, Nat.le_refl _, ?_, ?_, ?_⟩
      · rw [hoffset]
      · rw [hoffset]
        exact Nat.zero_le _
      · rw [hoffset, Bytes.startOf_length]
        rfl
    refine ⟨v, hv, ?_, hoffset, hnames, fun hfirst => ?_, fun hall => ?_⟩
    · rw [Reader.read, hv]
    · have hsize : out.size = data.size := hfirst.unique rfl hnames
      rw [hout, hsize, ByteArray.extract_zero_size]
    · rw [hall]
      exact hnames

def shortBlockReader : Reader MemorySource :=
  { inner := ⟨shortBlockFile, 13, 2, false, .none⟩, codec := .lz4 .checked, cache := ⟨#[104, 105]⟩,
    cursor := 0, bufferSize := 7, chunk := 2, position := 13, fileLength := 18, exhausted := false,
    decompressions := 1, log := #[] }

theorem start_shortBlockFile :
    Reader.start (MemorySource.new shortBlockFile .none) (.lz4 .checked) =
      .ok shortBlockReader := by
  have hfetched : Source.fetch (⟨shortBlockFile, 2, 2, false, .none⟩ : MemorySource)
      ((Codec.lz4 .checked).maxCompressedSize maxChunkSize) =
        (.block 7 ⟨#[2, 0, 0, 0, 32, 104, 105]⟩, shortBlockReader.inner) :=
    Source.fetch_of_readFor (k := 2) rfl rfl (by decide) (by decide) rfl
  exact Reader.start_of_block rfl rfl (Source.readExact?_of_readFor (k := 2) rfl) hfetched
    Lz4.encodes_hi (by decide)

theorem faultFree_shortBlockFile : Source.FaultFree (MemorySource.new shortBlockFile .none) :=
  (MemorySource.sound_new (by decide)).faultFree

/-- One byte is given, and the call that asks for two more takes the other with it. -/
theorem failing_read_loses_the_rest_of_a_chunk :
    ∃ v w, shortBlockReader.readBytes 1 = (.ok ⟨#[104]⟩, v) ∧
      v.currentOffset.Names shortBlockFile [⟨#[104, 105]⟩] 1 ∧
      v.readBytes 2 = (.error (.corrupt .blockWithoutSize), w) ∧ w.currentOffset = ⟨13, 0⟩ ∧
      ¬ w.currentOffset.Names shortBlockFile [⟨#[104, 105]⟩] 1 := by
  have hread : shortBlockReader.readBytes 1 =
      (.ok ⟨#[104]⟩, { shortBlockReader with cursor := 1 }) :=
    Reader.readBytes_cached (by decide)
  have hrest := failing_read_loses_the_rest _ (.lz4 .checked) shortBlockFile
    faultFree_shortBlockFile rfl rfl
  rw [decodeFrom_shortBlockFile] at hrest
  obtain ⟨-, hcalls⟩ := hrest nofun nofun
  obtain ⟨-, hbefore, hnext⟩ := hcalls _ _ (.readBytes (.start start_shortBlockFile) hread)
  obtain ⟨w, hw, -, hoffset, -, hlost⟩ := (hnext 2).2 (by decide)
  exact ⟨_, w, hread, hbefore, hw, hoffset, fun hnames => absurd (hlost.mp hnames) (by decide)⟩

/-- A first call for three bytes fails and takes the two bytes of the first chunk with it: the
offset behind it is not that of the first byte. -/
theorem failing_read_loses_two_bytes :
    Source.FaultFree (MemorySource.new shortBlockFile .none) ∧
    (Codec.lz4 .checked).decodeFrom shortBlockFile 0 magic.size =
      ⟨[⟨#[104, 105]⟩], .error (.corrupt .blockWithoutSize)⟩ ∧
    Reader.start (MemorySource.new shortBlockFile .none) (.lz4 .checked) = .ok shortBlockReader ∧
    (shortBlockReader.readBytes 3).1 = .error (.corrupt .blockWithoutSize) ∧
    (shortBlockReader.readBytes 3).2.currentOffset = ⟨13, 0⟩ ∧
    ¬ (shortBlockReader.readBytes 3).2.currentOffset.Names shortBlockFile [⟨#[104, 105]⟩] 0 := by
  have hload : ({ shortBlockReader with cursor := 2 } : Reader MemorySource).loadChunk 0 =
      (.error (.corrupt .blockWithoutSize),
        ({ shortBlockReader with cursor := 2 } : Reader MemorySource).loadChunk 0 |>.2) := by
    have hfetched : Source.fetch shortBlockReader.inner
        ((Codec.lz4 .checked).maxCompressedSize maxChunkSize) =
          (.block 1 ⟨#[7]⟩, ⟨shortBlockFile, 18, 2, false, .none⟩) :=
      Source.fetch_of_readFor (k := 2) rfl rfl (by decide) (by decide) rfl
    refine Prod.ext ?_ rfl
    rw [Reader.loadChunk_eq]
    exact congrArg (fun fetched => (Reader.settle _ 0 fetched).1) hfetched
  have hread : shortBlockReader.readBytes 3 = (.error (.corrupt .blockWithoutSize),
      (({ shortBlockReader with cursor := 2 } : Reader MemorySource).loadChunk 0).2) := by
    rw [Reader.readBytes, Reader.readOn_step]
    exact Reader.readOn_of_load_failed (by decide) rfl rfl hload (by simp)
  have hoffset : (shortBlockReader.readBytes 3).2.currentOffset = ⟨13, 0⟩ := by
    rw [hread]
    exact Reader.currentOffset_loadChunk _ 0
  refine ⟨faultFree_shortBlockFile, decodeFrom_shortBlockFile, start_shortBlockFile, ?_, hoffset,
    fun hnames => ?_⟩
  · rw [hread]
  · have hlast : (⟨13, 0⟩ : Offset).Names shortBlockFile [⟨#[104, 105]⟩] 2 :=
      ⟨1, Nat.le_refl 1, rfl, Nat.zero_le _, rfl⟩
    rw [hoffset] at hnames
    exact absurd (hnames.unique decodeFrom_shortBlockFile hlast) (by decide)

end TraceCapture
