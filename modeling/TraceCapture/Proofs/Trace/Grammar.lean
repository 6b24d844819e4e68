import TraceCapture.Proofs.Trace.Decoding

set_option autoImplicit false

/-!
# Decoding a whole file

`Codec.decodeFrom` is the grammar of trace files as a decoder that walks over the entries once. It
ends where the entries end and at the first entry that it has to reject.
-/

namespace TraceCapture

/-- The chunk in a block. The codec is not asked for an empty one; of any other it fills a buffer
of the announced size, or fails. -/
def Codec.chunkOf (codec : Codec) (call : Nat) (block : ByteArray) : Outcome TraceError ByteArray :=
  match codec.announced block with
  | .error e => .error e
  | .ok size =>
    if size = 0 then .ok .empty
    else
      let d := codec.decompress call block size
      d.ending.map fun () => Bytes.fit d.output size

/-- The chunks of a file up to the end of its entries or the first entry that is rejected, and which
of these it was. -/
structure Decoded where
  chunks : List ByteArray
  ending : Outcome TraceError Unit

def Codec.decodeFrom (codec : Codec) (file : ByteArray) (call i : Nat) : Decoded :=
  match _h : codec.entryAt? file i with
  | .error cause => ⟨[], .error cause⟩
  | .ok none => ⟨[], .ok ()⟩
  | .ok (some e) =>
    match codec.chunkOf call e.block with
    | .error cause => ⟨[], .error cause⟩
    | .panicked v => ⟨[], .panicked v⟩
    | .ok chunk =>
      let rest := codec.decodeFrom file (if chunk.size = 0 then call else call + 1) e.stop
      ⟨chunk :: rest.chunks, rest.ending⟩
termination_by file.size - i
decreasing_by
  have := Entry.stop_le_size (Codec.entryAt?_eq_some.mp _h).1
  omega

section

variable {codec : Codec} {file : ByteArray} {call i : Nat}

theorem Codec.Encodes.chunkOf_eq {block chunk : ByteArray} (h : codec.Encodes block chunk)
    (call : Nat) : codec.chunkOf call block = .ok chunk := by
  rw [chunkOf, h.announced_eq]
  dsimp only
  split
  · next h0 => rw [ByteArray.size_eq_zero_iff.mp h0]
  · next h0 =>
    rw [h.decompress_eq call (Nat.pos_of_ne_zero h0)]
    simp [Outcome.map, Bytes.fit]

theorem Codec.decodeFrom_tooLong {cause : TraceError} (h : codec.entryAt? file i = .error cause) :
    codec.decodeFrom file call i = ⟨[], .error cause⟩ := by
  rw [decodeFrom]
  split <;> simp_all

theorem Codec.decodeFrom_ends (h : codec.entryAt? file i = .ok none) :
    codec.decodeFrom file call i = ⟨[], .ok ()⟩ := by
  rw [decodeFrom]
  split <;> simp_all

theorem Codec.decodeFrom_chunk {e : Entry} {chunk : ByteArray}
    (h : codec.entryAt? file i = .ok (some e)) (hc : codec.chunkOf call e.block = .ok chunk) :
    codec.decodeFrom file call i =
      ⟨chunk :: (codec.decodeFrom file (if chunk.size = 0 then call else call + 1) e.stop).chunks,
        (codec.decodeFrom file (if chunk.size = 0 then call else call + 1) e.stop).ending⟩ := by
  rw [decodeFrom]
  split <;> simp_all

theorem Codec.decodeFrom_rejected {e : Entry} (h : codec.entryAt? file i = .ok (some e))
    (hc : ∀ chunk, codec.chunkOf call e.block ≠ .ok chunk) :
    codec.decodeFrom file call i = ⟨[], (codec.chunkOf call e.block).map fun _ => ()⟩ := by
  rw [decodeFrom]
  split
  · simp_all
  · simp_all
  · next e' he =>
    rw [h] at he
    cases he
    cases hchunk : codec.chunkOf call e.block with
    | ok chunk => exact absurd hchunk (hc chunk)
    | error cause | panicked v => rfl

theorem Codec.decodeFrom_eq_cons {chunk : ByteArray} {chunks : List ByteArray}
    {ending : Outcome TraceError Unit}
    (h : codec.decodeFrom file call i = ⟨chunk :: chunks, ending⟩) :
    ∃ e, codec.entryAt? file i = .ok (some e) ∧ codec.chunkOf call e.block = .ok chunk ∧
      codec.decodeFrom file (if chunk.size = 0 then call else call + 1) e.stop =
        ⟨chunks, ending⟩ := by
  cases he : codec.entryAt? file i with
  | error cause =>
    rw [decodeFrom_tooLong he] at h
    cases h
  | ok found =>
    cases found with
    | none =>
      rw [decodeFrom_ends he] at h
      cases h
    | some e =>
      cases hc : codec.chunkOf call e.block with
      | ok first =>
        rw [decodeFrom_chunk he hc] at h
        cases h
        exact ⟨e, rfl, hc, rfl⟩
      | error cause | panicked v =>
        rw [decodeFrom_rejected he (by simp [hc])] at h
        cases h

/-- Entries that hold chunks decode to these, and then end. -/
theorem Codec.Decodes.decodeFrom_eq {chunks : List ByteArray} (h : codec.Decodes file i chunks)
    (call : Nat) : codec.decodeFrom file call i = ⟨chunks, .ok ()⟩ := by
  induction h generalizing call with
  | ends h => exact decodeFrom_ends (entryAt?_eq_none.mpr h)
  | entry he hc rest ih =>
    rw [decodeFrom_chunk (entryAt?_eq_some.mpr ⟨he, hc.block_le⟩) (hc.chunkOf_eq call), ih]

end

end TraceCapture
