import TraceCapture.Proofs.Block.Lz4.RoundTrip
import TraceCapture.Proofs.Trace.Decoding

set_option autoImplicit false

namespace TraceCapture.Lz4

structure Engine where
  /-- A size that no compressed data of so many bytes exceeds. -/
  maxSize : Nat → Nat
  /-- The compressed data, if it fits into a buffer of so many bytes. -/
  compressInto : ByteArray → Nat → Except TraceError ByteArray
  decompressInto : ByteArray → Nat → Decoding

namespace Engine

def codec (e : Engine) : Codec where
  maxCompressedSize n := 4 + e.maxSize n
  compress _ data room :=
    if Bytes.u32Limit ≤ data.size then .error (.corrupt .blockTooLong)
    else if room < 4 then .error (.corrupt .bufferTooSmall)
    else (e.compressInto data (room - 4)).map fun body => Bytes.ofU32 data.size ++ body
  decompressedSize := sizeOfBlock .blockWithoutSize
  decompress _ block room :=
    if block.size < 4 then ⟨.empty, .error (.corrupt .blockWithoutSize)⟩
    else
      match e.decompressInto (block.extract 4 block.size) room with
      | ⟨out, .ok ()⟩ =>
          if out.size = room then ⟨out, .ok ()⟩ else ⟨out, .error (.corrupt .lengthMismatch)⟩
      | failed => failed

/-- An engine that succeeds where there is room enough, and gives back what it was given. -/
structure InvertsItself (e : Engine) : Prop where
  mono : ∀ m n, m ≤ n → e.maxSize m ≤ e.maxSize n
  max_lt : 4 + e.maxSize maxChunkSize < Bytes.u32Limit
  compress_ok : ∀ data room, e.maxSize data.size ≤ room →
    ∃ body, e.compressInto data room = .ok body
  size_le : ∀ data room body, e.compressInto data room = .ok body → body.size ≤ e.maxSize data.size
  decompress_eq : ∀ data room body, data.size < Bytes.u32Limit →
    e.compressInto data room = .ok body → e.decompressInto body data.size = ⟨data, .ok ()⟩

theorem of_compress {e : Engine} {call room : Nat} {data block : ByteArray}
    (h : e.codec.compress call data room = .ok block) :
    data.size < Bytes.u32Limit ∧ ∃ body, e.compressInto data (room - 4) = .ok body ∧
      block = Bytes.ofU32 data.size ++ body := by
  change (if _ then _ else if _ then _ else _) = _ at h
  split at h
  · cases h
  · next hlimit =>
    split at h
    · cases h
    · cases hc : e.compressInto data (room - 4) with
      | error err =>
        rw [hc] at h
        cases h
      | ok body =>
        rw [hc] at h
        cases h
        exact ⟨Nat.lt_of_not_le hlimit, body, rfl, rfl⟩

theorem InvertsItself.lawful {e : Engine} (h : e.InvertsItself) : e.codec.Lawful where
  mono m n hle := Nat.add_le_add_left (h.mono m n hle) 4
  max_lt := h.max_lt
  compress_ok call data room _ hle hroom := by
    change 4 + e.maxSize data.size ≤ room at hroom
    have hlimit : ¬ Bytes.u32Limit ≤ data.size := by
      unfold maxChunkSize Bytes.u32Limit at *
      omega
    obtain ⟨body, hbody⟩ := h.compress_ok data (room - 4) (by omega)
    refine ⟨Bytes.ofU32 data.size ++ body, ?_⟩
    change (if _ then _ else if _ then _ else _) = _
    rw [if_neg hlimit, if_neg (by omega), hbody]
    rfl
  compress_size call data room block _ hc := by
    obtain ⟨-, body, hbody, rfl⟩ := of_compress hc
    have hle := h.size_le data (room - 4) body hbody
    change 0 < _ ∧ _ ≤ 4 + e.maxSize data.size
    rw [ByteArray.size_append, Bytes.size_ofU32]
    omega
  decompressedSize_compress call data room block _ hc := by
    obtain ⟨hlimit, body, -, rfl⟩ := of_compress hc
    dsimp only [codec]
    rw [sizeOfBlock, Bytes.toU32?_ofU32_append hlimit]
  decompress_compress call call' data room block _ hc := by
    obtain ⟨hlimit, body, hbody, rfl⟩ := of_compress hc
    have hbehind : (Bytes.ofU32 data.size ++ body).extract 4 (Bytes.ofU32 data.size ++ body).size =
        body := by
      exact ByteArray.extract_append_eq_right rfl ByteArray.size_append
    have hsize : ¬ (Bytes.ofU32 data.size ++ body).size < 4 := by
      rw [ByteArray.size_append, Bytes.size_ofU32]
      omega
    dsimp only [codec]
    rw [if_neg hsize, hbehind, h.decompress_eq data (room - 4) body hlimit hbody]
    exact if_pos rfl

end Engine

def engine (p : Profile) : Engine where
  maxSize := maxEncodedSize
  compressInto data room :=
    if room < maxEncodedSize data.size then .error .compression else .ok (encode data)
  decompressInto body room :=
    match decode p body room with
    | (out, ending) => ⟨out, ending.mapError .decompression⟩

theorem codec_engine (p : Profile) : (engine p).codec = .lz4 p := by
  have hcompress : (engine p).codec.compress = (Codec.lz4 p).compress := by
    funext call data room
    change (if _ then _ else if _ then _ else Except.map _ (if _ then _ else _)) =
      compress data room
    unfold compress
    split
    · rfl
    · split
      · rfl
      · split <;> rfl
  have hdecompress : (engine p).codec.decompress = (Codec.lz4 p).decompress := by
    funext call block room
    change (if _ then _ else _) = decompress p block room
    unfold decompress
    split
    · rfl
    · change (match (match decode p (block.extract 4 block.size) room with
        | (out, ending) => (⟨out, ending.mapError .decompression⟩ : Decoding)) with
        | ⟨out, .ok ()⟩ => _
        | failed => failed) = _
      obtain ⟨out, ending⟩ := decode p (block.extract 4 block.size) room
      cases ending <;> rfl
  change (⟨_, (engine p).codec.compress, _, (engine p).codec.decompress⟩ : Codec) = _
  rw [hcompress, hdecompress]
  rfl

theorem engine_invertsItself (p : Profile) : (engine p).InvertsItself where
  mono m n h := by
    change maxEncodedSize m ≤ maxEncodedSize n
    unfold maxEncodedSize
    omega
  max_lt := by
    change 4 + maxEncodedSize maxChunkSize < Bytes.u32Limit
    decide
  compress_ok data room h := ⟨encode data, if_neg (Nat.not_lt_of_le h)⟩
  size_le data room body h := by
    change (if _ then _ else _) = _ at h
    split at h
    · cases h
    · cases h
      exact size_encode_le data
  decompress_eq data room body hlimit h := by
    change (if _ then _ else _) = _ at h
    split at h
    · cases h
    · cases h
      dsimp only [engine]
      rw [decode_encode p hlimit]
      rfl

theorem lawful_lz4 (p : Profile) : (Codec.lz4 p).Lawful :=
  codec_engine p ▸ (engine_invertsItself p).lawful

/-- A block that ends behind the size of an empty chunk is one of that chunk. -/
theorem encodes_empty : (Codec.lz4 .checked).Encodes (Bytes.ofU32 0) .empty where
  block_pos := by decide
  block_le := by decide
  size_eq := rfl
  size_le := Nat.zero_le _
  decompress_eq _ hpos := absurd hpos (Nat.lt_irrefl 0)

theorem encodes_hi :
    (Codec.lz4 .checked).Encodes ⟨#[2, 0, 0, 0, 32, 104, 105]⟩ ⟨#[104, 105]⟩ := by
  have hcompress : (Codec.lz4 .checked).compress 0 ⟨#[104, 105]⟩ 26 =
    .ok ⟨#[2, 0, 0, 0, 32, 104, 105]⟩ := by with_unfolding_all rfl
  exact (lawful_lz4 .checked).encodes (by decide) (by decide) hcompress

/-- A block that is decoded without a complaint fills the room it was given, whatever it holds. -/
theorem size_of_decompress {p : Profile} {block out : ByteArray} {room : Nat}
    (h : decompress p block room = ⟨out, .ok ()⟩) : out.size = room := by
  unfold decompress at h
  split at h
  · cases h
  · split at h
    · cases h
    · cases h
    · split at h
      · next hsize =>
        cases h
        exact hsize
      · cases h

end TraceCapture.Lz4
