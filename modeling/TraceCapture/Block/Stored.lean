import TraceCapture.Trace.Codec

set_option autoImplicit false

namespace TraceCapture.Stored

def compress (data : ByteArray) (room : Nat) : Except TraceError ByteArray :=
  if room < 4 + data.size then .error (.corrupt (.codec "stored buffer too small"))
  else .ok (Bytes.ofU32 data.size ++ data)

def decompress (block : ByteArray) (room : Nat) : Decoding :=
  let body := block.extract 4 block.size
  let output := body.extract 0 room
  if body.size = room then ⟨output, .ok ()⟩
  else ⟨output, .error (.corrupt (.codec "stored length mismatch"))⟩

end TraceCapture.Stored

namespace TraceCapture

def Codec.stored : Codec where
  maxCompressedSize n := n + 4
  compress _ := Stored.compress
  decompressedSize := sizeOfBlock (.codec "test block too short")
  decompress _ := Stored.decompress

end TraceCapture
