import TraceCapture.Proofs.Bookmarks
import TraceCapture.Proofs.Reader.FailingReads

set_option autoImplicit false

namespace TraceCapture

theorem Bytes.startOf_le_startOf (chunks : List ByteArray) {j k : Nat} (h : j ≤ k) :
    startOf chunks j ≤ startOf chunks k := by
  induction h with
  | refl => exact Nat.le_refl _
  | step _ ih =>
    rw [startOf_succ]
    exact Nat.le_add_right_of_le ih

/-- The offset of a later byte is greater, whichever of its names it is. -/
theorem Offset.Names.lt {codec : Codec} {file : ByteArray} {call p q : Nat} {d : Decoded}
    {o o' : Offset} (hd : codec.decodeFrom file call magic.size = d)
    (hp : o.Names file d.chunks p) (hq : o'.Names file d.chunks q) (hpq : p < q) : o < o' := by
  obtain ⟨j, hj, hchunk, hwithin, rfl⟩ := hp
  obtain ⟨k, hk, hchunk', hwithin', rfl⟩ := hq
  rcases Nat.lt_trichotomy j k with hlt | rfl | hlt
  · left
    rw [hchunk, hchunk']
    exact Codec.after_lt_after hd hlt hk
  · exact .inr ⟨hchunk.trans hchunk'.symm, Nat.lt_of_add_lt_add_left hpq⟩
  · -- an earlier chunk ends before the later one starts
    have hend := Bytes.startOf_le_startOf d.chunks (Nat.succ_le_of_lt hlt)
    rw [Bytes.startOf_succ] at hend
    omega

namespace Writer

variable {σ : Type}

/-- The offset that the writer tells at some moment of a run of calls, and how many bytes were
appended by then. -/
def Marks [Sink σ] (w : Writer σ) (calls : List WriterCall) (o : Offset) (p : Nat) : Prop :=
  ∃ earlier later v, calls = earlier ++ later ∧ w.performAll earlier = (.ok (), v) ∧
    o = v.currentOffset ∧ p = (WriterCall.bytes earlier).size

variable [LawfulSink σ] {w v w' w'' : Writer σ} {before : ByteArray}
  {blocks blocks' chunks chunks' : List ByteArray}

theorem Wrote.unique (h : Wrote w before blocks chunks) (h' : Wrote w before blocks' chunks') :
    Entry.writtenAll blocks' = Entry.writtenAll blocks ∧ chunks' = chunks := by
  have hcontents := h'.contents_eq.symm.trans h.contents_eq
  rw [ByteArray.append_right_inj, ByteArray.append_right_inj] at hcontents
  have hd := (Codec.decodes_writtenAll h.lawful.max_lt h.encodes magic).decodeFrom_eq 0
  have hd' := (Codec.decodes_writtenAll h.lawful.max_lt h'.encodes magic).decodeFrom_eq 0
  rw [hcontents, hd] at hd'
  cases hd'
  exact ⟨hcontents, rfl⟩

/-- At every moment of a run the offset of the writer names the byte of the finished file that is
appended next. -/
theorem Wrote.names (h : Wrote v before blocks chunks) {later : List WriterCall} {ending : Ending}
    (hlater : v.performAll later = (.ok (), w')) (hend : ending.perform w' = (.ok (), w''))
    (hwrote : Wrote w'' before blocks' chunks') :
    v.currentOffset.Names (magic ++ Entry.writtenAll blocks') chunks'
      (Bytes.concat chunks ++ v.staged).size := by
  obtain ⟨bs, cs, hwrote', -, hfirst⟩ := h.steps (.of_performAll hlater)
  obtain ⟨u, new, hu, -, -, hwrote''⟩ := hwrote'.perform_ending ending
  rw [hend] at hu
  cases hu
  rw [List.append_assoc, List.append_assoc] at hwrote''
  obtain ⟨hfile, rfl⟩ := hwrote''.unique hwrote
  have hoffset := h.currentOffset (Entry.writtenAll (bs ++ new))
  rw [← Entry.writtenAll_append, ← hfile] at hoffset
  refine ⟨chunks.length, ?_, congrArg Offset.chunk hoffset, ?_, ?_⟩
  · rw [List.length_append]
    omega
  · rw [List.getD_append_right _ _ _ _ (Nat.le_refl _), Nat.sub_self]
    have hhead := size_headD_stagedChunk cs w'
    generalize cs ++ w'.stagedChunk = more at hhead ⊢
    cases more <;> exact hhead ▸ hfirst
  · rw [Bytes.startOf, List.take_left, ByteArray.size_append]
    rfl

theorem Marks.names {calls : List WriterCall} {ending : Ending} {o : Offset} {p : Nat}
    (h : Wrote w before [] []) (hstaged : w.staged = .empty)
    (hcalls : w.performAll calls = (.ok (), w')) (hend : ending.perform w' = (.ok (), w''))
    (hwrote : Wrote w'' before blocks chunks) (hmark : w.Marks calls o p) :
    o.Names (magic ++ Entry.writtenAll blocks) chunks p := by
  obtain ⟨earlier, later, v, rfl, hearlier, rfl, rfl⟩ := hmark
  rw [performAll_append, andThen_eq_ok] at hcalls
  obtain ⟨u, hu, hlater⟩ := hcalls
  rw [hearlier] at hu
  cases hu
  obtain ⟨u, bs, cs, hu, -, hwrote', hdata⟩ := h.performAll earlier
  rw [hearlier] at hu
  cases hu
  rw [hstaged, ByteArray.empty_append] at hdata
  rw [← hdata]
  exact hwrote'.names hlater hend hwrote

end Writer

namespace Reader

variable {σ : Type} [LawfulSource σ] {codec : Codec} {file : ByteArray} {chunks : List ByteArray}
  {marks : Offset → Nat → Prop} {r : Reader σ} {p length : Nat}

/-- The readers of a file that reads, skips and seeks lead to, with the byte that comes next. A seek
takes one of these marks, or an offset that such a reader told. -/
inductive Following (codec : Codec) (file : ByteArray) (length : Nat)
    (marks : Offset → Nat → Prop) : Reader σ → Nat → Prop where
  | start {source : σ} {r : Reader σ} (hfree : Source.FaultFree source)
      (hseek : Source.Seekable source) (hc : LawfulSource.contents source = file)
      (h : Reader.start source codec = .ok r) : Following codec file length marks r 0
  | read {r : Reader σ} {p : Nat} (call : ReadCall) (h : Following codec file length marks r p) :
      Following codec file length marks (call.perform r).2 (min (p + call.size) length)
  | skip {r : Reader σ} {p : Nat} (n : Nat) (h : Following codec file length marks r p) :
      Following codec file length marks (r.skip n).2 (min (p + n) length)
  | mark {r : Reader σ} {o : Offset} {p q : Nat} (h : Following codec file length marks r p)
      (hmark : marks o q) : Following codec file length marks (r.setCurrentOffset o).2 q
  | told {r told : Reader σ} {p q : Nat} (h : Following codec file length marks r p)
      (htold : Following codec file length marks told q) :
      Following codec file length marks (r.setCurrentOffset told.currentOffset).2 q

theorem StandsAt.names (h : StandsAt codec file chunks r p) :
    r.currentOffset.Names file chunks p := by
  obtain ⟨k, hcaches, rfl⟩ := h
  exact ⟨k, hcaches.le_length, hcaches.chunk_eq, hcaches.size_eq ▸ hcaches.cursor_le, rfl⟩

theorem Over.seek_names {source : σ} (hd : codec.Decodes file magic.size chunks)
    (hmagic : file.extract 0 magic.size = magic) (hs : Source.Seekable source)
    (hc : LawfulSource.contents source = file) (h : Over source codec r) {o : Offset}
    (ho : o.Names file chunks p) : ∃ r', r.setCurrentOffset o = (.ok (), r') ∧
      StandsAt codec file chunks r' p := by
  obtain ⟨k, hk, hchunk, hwithin, rfl⟩ := ho
  obtain ⟨r', hr', hstands⟩ := (seek_standsAt hd hmagic hs hc h hk o.within).1 hwithin
  rw [← hchunk] at hr'
  exact ⟨r', hr', hstands⟩

structure OnCourse (codec : Codec) (file : ByteArray) (chunks : List ByteArray) (r : Reader σ)
    (p : Nat) : Prop where
  standsAt : StandsAt codec file chunks r p
  opened : ∃ source : σ, Source.Seekable source ∧ LawfulSource.contents source = file ∧
    Opened source codec r

theorem OnCourse.call (h : OnCourse codec file chunks r p) (call : ReaderCall) {q : Nat}
    (hq : StandsAt codec file chunks (call.perform r) q) :
    OnCourse codec file chunks (call.perform r) q := by
  obtain ⟨source, hs, hc, hopened⟩ := h.opened
  exact ⟨hq, source, hs, hc, .call call hopened⟩

theorem OnCourse.seek (hd : codec.Decodes file magic.size chunks)
    (hmagic : file.extract 0 magic.size = magic) (h : OnCourse codec file chunks r p) {o : Offset}
    {q : Nat} (ho : o.Names file chunks q) :
    OnCourse codec file chunks (r.setCurrentOffset o).2 q := by
  obtain ⟨source, hs, hc, hopened⟩ := h.opened
  obtain ⟨r', hr', hstands⟩ := hopened.over.seek_names hd hmagic hs hc ho
  refine h.call (.seek o) ?_
  rw [ReaderCall.perform, hr']
  exact hstands

theorem Following.onCourse (hd : codec.Decodes file magic.size chunks)
    (hmagic : file.extract 0 magic.size = magic) (hlength : (Bytes.concat chunks).size = length)
    (hmarks : ∀ o q, marks o q → o.Names file chunks q)
    (h : Following codec file length marks r p) : OnCourse codec file chunks r p := by
  subst hlength
  induction h with
  | @start source _ hfree hseek hc h =>
    exact ⟨start_standsAt hd hmagic ⟨hfree, hc, rfl⟩ h, source, hseek, hc, .start h⟩
  | read call _ ih => exact ih.call (.read call) (ih.standsAt.read hd call)
  | skip n _ ih => exact ih.call (.skip n) (ih.standsAt.skip hd n)
  | mark _ hmark ih => exact ih.seek hd hmagic (hmarks _ _ hmark)
  | told _ _ ih htold => exact ih.seek hd hmagic htold.standsAt.names

def Captured (σ : Type) [LawfulSource σ] (codec : Codec) (file : ByteArray) (length : Nat)
    (marks : Offset → Nat → Prop) (o : Offset) (p : Nat) : Prop :=
  marks o p ∨ ∃ r : Reader σ, Following codec file length marks r p ∧ o = r.currentOffset

end Reader

/-- Of two offsets that were captured at different bytes, each by the writer in the middle of its
run or by some reader of the finished file, the one of the earlier byte is the lesser. -/
theorem offset_order_is_stream_order {σ τ : Type} [LawfulSink σ] [LawfulSource τ] {sink : σ}
    {codec : Codec} {n : Nat} (hs : Sink.FaultFree sink) (hc : codec.Lawful) (hpos : 0 < n)
    (hmax : n ≤ maxChunkSize) (calls : List WriterCall) (ending : Ending) :
    ∃ w w' w'' file,
      Writer.start sink n codec = (.ok w, w.inner) ∧ w.performAll calls = (.ok (), w') ∧
      ending.perform w' = (.ok (), w'') ∧
      LawfulSink.contents w''.inner = LawfulSink.contents sink ++ file ∧
      let data := WriterCall.bytes calls
      file.size ≤ magic.size + data.size * (lengthSize + Bytes.u32Limit) ∧
      (∀ source : τ, Source.FaultFree source → Source.Seekable source →
        LawfulSource.contents source = file → ∃ r, Reader.start source codec = .ok r) ∧
      (∀ (r : Reader τ) p, Reader.Following codec file data.size (w.Marks calls) r p →
        p ≤ data.size ∧ r.Delivers (data.extract p data.size)) ∧
      ∀ o o' p q, Reader.Captured τ codec file data.size (w.Marks calls) o p →
        Reader.Captured τ codec file data.size (w.Marks calls) o' q →
        p < q → o.compare o' = .lt := by
  obtain ⟨w, hw, -, hstaged, -, hwrote⟩ := Writer.wrote_start hs hc hpos hmax
  obtain ⟨w₁, w', w'', blocks, chunks, hw₁, hcalls, hend, hwrote', hcodec, hdata⟩ :=
    Writer.wrote_run hs hc hpos hmax calls ending
  rw [hw] at hw₁
  cases hw₁
  have henc := hwrote'.encodes
  rw [hcodec] at henc
  have hd := Codec.decodes_writtenAll hc.max_lt henc magic
  have hmagic : (magic ++ Entry.writtenAll blocks).extract 0 magic.size = magic :=
    ByteArray.extract_append_eq_left rfl
  have hlength := congrArg ByteArray.size hdata
  have hmarks := fun o q => Writer.Marks.names (o := o) (p := q) hwrote hstaged hcalls hend hwrote'
  refine ⟨w, w', w'', _, hw, hcalls, hend, hwrote'.contents_eq, hdata ▸ hwrote'.size_le,
    fun source hfree _ hcontents => ?_, fun r p hr => ?_, fun o o' p q ho ho' hpq => ?_⟩
  · obtain ⟨r, hr, -⟩ := Reader.start_holds ⟨hfree, hcontents, rfl⟩ hmagic hd
    exact ⟨r, hr⟩
  · have hstands := (hr.onCourse hd hmagic hlength hmarks).standsAt
    rw [← hdata]
    exact ⟨hstands.le_size, hstands.delivers hd⟩
  · have hnames : ∀ o p, Reader.Captured τ codec (magic ++ Entry.writtenAll blocks)
        (WriterCall.bytes calls).size (w.Marks calls) o p →
        o.Names (magic ++ Entry.writtenAll blocks) chunks p := by
      rintro o p (hmark | ⟨r, hr, rfl⟩)
      · exact hmarks o p hmark
      · exact (hr.onCourse hd hmagic hlength hmarks).standsAt.names
    exact Offset.compare_eq_lt.mpr
      (Offset.Names.lt (hd.decodeFrom_eq 0) (hnames o p ho) (hnames o' q ho') hpq)

/-- The offset of the writer behind its first byte is greater than that of a new reader, and less
than that of the reader at the end of the file; it takes the reader back to the second byte. -/
theorem offset_order_is_stream_order_in_memory :
    ∃ w v w' w'' r,
      Writer.start (MemorySink.new .none) 2 (.lz4 .checked) = (.ok w, w.inner) ∧
      w.performAll [.append ⟨#[104]⟩] = (.ok (), v) ∧
      w.performAll [.append ⟨#[104]⟩, .flush, .append ⟨#[105, 33]⟩] = (.ok (), w') ∧
      w'.finish = (.ok (), w'') ∧
      Reader.start (MemorySource.new w''.inner.data .none) (.lz4 .checked) = .ok r ∧
      r.currentOffset.compare v.currentOffset = .lt ∧
      v.currentOffset.compare (r.skip 3).2.currentOffset = .lt ∧
      ((r.skip 3).2.setCurrentOffset v.currentOffset).2.Delivers ⟨#[105, 33]⟩ := by
  have hfree : Sink.FaultFree (MemorySink.new .none) := MemorySink.faultFree rfl
  obtain ⟨w, w', w'', file, hw, hcalls, hfinish, hcontents, hsize, hopens, hfollow, horder⟩ :=
    offset_order_is_stream_order (τ := MemorySource) hfree (Lz4.lawful_lz4 .checked) (n := 2)
      (by decide) (by decide) [.append ⟨#[104]⟩, .flush, .append ⟨#[105, 33]⟩] .finish
  have hfile : w''.inner.data = file := hcontents.trans ByteArray.empty_append
  have hsound : (MemorySource.new file .none).Sound :=
    MemorySource.sound_new (Nat.lt_of_le_of_lt hsize (by decide))
  obtain ⟨r, hr⟩ := hopens _ hsound.faultFree hsound.seekable rfl
  have hsplit := hcalls
  rw [← List.singleton_append, Writer.performAll_append, Writer.andThen_eq_ok] at hsplit
  obtain ⟨v, hv, -⟩ := hsplit
  have hmark : w.Marks [.append ⟨#[104]⟩, .flush, .append ⟨#[105, 33]⟩] v.currentOffset 1 :=
    ⟨_, _, v, List.singleton_append.symm, hv, rfl, rfl⟩
  have hstart : Reader.Following (.lz4 .checked) file 3
      (w.Marks [.append ⟨#[104]⟩, .flush, .append ⟨#[105, 33]⟩]) r 0 :=
    .start hsound.faultFree hsound.seekable rfl hr
  have hend := hstart.skip 3
  exact ⟨w, v, w', w'', r, hw, hv, hcalls, hfinish, hfile ▸ hr,
    horder _ _ 0 1 (.inr ⟨r, hstart, rfl⟩) (.inl hmark) (by decide),
    horder _ _ 1 3 (.inl hmark) (.inr ⟨_, hend, rfl⟩) (by decide),
    (hfollow _ 1 (hend.mark hmark)).2⟩

end TraceCapture
