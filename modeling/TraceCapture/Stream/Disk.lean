import TraceCapture.Bytes
import TraceCapture.Stream.Path
import TraceCapture.Stream.Sink
import TraceCapture.Stream.Source

set_option autoImplicit false

namespace TraceCapture

inductive DiskNode where
  | file (data : ByteArray)
  | directory

structure Disk where
  nodes : List (DiskPlace × DiskNode)

namespace Disk

def empty : Disk :=
  ⟨[([], .directory), (workingDirectory.dropLast, .directory), (workingDirectory, .directory)]⟩

def node? (d : Disk) (place : DiskPlace) : Option DiskNode := d.nodes.lookup place

def set (d : Disk) (place : DiskPlace) (n : DiskNode) : Disk :=
  ⟨(place, n) :: d.nodes.filter fun (p, _) => p ≠ place⟩

def walk (d : Disk) (here : DiskPlace) : List String → Except IoError DiskPlace
  | [] => .ok here
  | name :: names =>
    match here.follow name with
    | .error e => .error e
    | .ok there =>
      match d.node? there with
      | some .directory => d.walk there names
      | some (.file _) => .error .notADirectory
      | none => .error .notFound

def directoryOf (d : Disk) (path : DiskPath) : Except IoError DiskPlace :=
  match path.fault with
  | some e => .error e
  | none => d.walk path.start path.lead

def place (d : Disk) (path : DiskPath) : Except IoError DiskPlace :=
  match d.directoryOf path with
  | .error e => .error e
  | .ok here => here.follow path.last

def find (d : Disk) (path : DiskPath) : Except IoError (DiskPlace × DiskNode) :=
  match d.place path with
  | .error e => .error e
  | .ok there =>
    match d.node? there with
    | none => .error .notFound
    | some .directory => .ok (there, .directory)
    | some (.file data) =>
        if path.directoryOnly then .error .notADirectory else .ok (there, .file data)

def contents (d : Disk) (path : DiskPath) : Except IoError ByteArray :=
  match d.find path with
  | .error e => .error e
  | .ok (_, .directory) => .error .isADirectory
  | .ok (_, .file data) => .ok data

/-- The place of the file that a path is to have. A path that can only lead to a directory is
refused before its last name is looked at. -/
def placeOfFile (d : Disk) (path : DiskPath) : Except IoError DiskPlace :=
  match d.directoryOf path with
  | .error e => .error e
  | .ok here =>
    if path.directoryOnly then .error .isADirectory
    else
      match here.follow path.last with
      | .error e => .error e
      | .ok there =>
        match d.node? there with
        | some .directory => .error .isADirectory
        | _ => .ok there

def put (d : Disk) (path : DiskPath) (data : ByteArray) : Except IoError Disk :=
  (d.placeOfFile path).map fun there => d.set there (.file data)

def makeDirectory (d : Disk) (path : DiskPath) : Except IoError Disk :=
  match d.place path with
  | .error e => .error e
  | .ok there =>
    match d.node? there with
    | some _ => .error .alreadyExists
    | none => .ok (d.set there .directory)

end Disk

structure DiskFile where
  disk : Disk
  place : DiskPlace
  position : Nat

namespace DiskFile

/-- The largest position that a file can be sent to: no file has more than 4294967295 blocks of
4096 bytes. -/
def maxPosition : Nat := 4294967295 * 4096

def data (f : DiskFile) : ByteArray :=
  match f.disk.node? f.place with
  | some (.file data) => data
  | _ => .empty

/-- Opens what is there for reading. A directory opens too, but does not read. -/
def forReading (d : Disk) (path : DiskPath) : Except IoError DiskFile :=
  (d.find path).map fun (there, _) => ⟨d, there, 0⟩

def forWriting (d : Disk) (path : DiskPath) : Except IoError DiskFile :=
  (d.placeOfFile path).map fun there => ⟨d.set there (.file .empty), there, 0⟩

def read (f : DiskFile) (n : Nat) : SourceReply × DiskFile :=
  match f.disk.node? f.place with
  | some .directory => (.failed .isADirectory, f)
  | _ =>
    let stop := f.position + min n (f.data.size - f.position)
    (.bytes (f.data.extract f.position stop), { f with position := stop })

def write (f : DiskFile) (b : ByteArray) : SinkReply × DiskFile :=
  let data := f.data
  let data := if data.size < f.position then Bytes.fit data f.position else data
  let disk := f.disk.set f.place (.file (Bytes.overwrite data f.position b))
  (.accepted b.size, { f with disk, position := f.position + b.size })

def seekStart (f : DiskFile) (n : Nat) : Except IoError Unit × DiskFile :=
  if maxPosition < n then (.error .invalidInput, f) else (.ok (), { f with position := n })

def seekEnd (f : DiskFile) : Except IoError Nat × DiskFile :=
  (.ok f.data.size, { f with position := f.data.size })

instance : Source DiskFile where
  read := read
  seekStart := seekStart
  seekEnd := seekEnd
  patience _ := 0
  remaining f := f.data.size - f.position
  patience_lt f n h := by
    unfold read at h
    split at h <;> cases h
  size_le f n b h := by
    unfold read at h
    split at h
    · cases h
    · cases h
      simp only [ByteArray.size_extract]
      omega
  remaining_read f n b h := by
    unfold read at h ⊢
    split at h
    · cases h
    · cases h
      simp only [ByteArray.size_extract, data]
      omega
  remaining_le f n := by
    unfold read
    split
    · exact Nat.le_refl _
    · simp only [data]
      omega

instance : Sink DiskFile where
  write := write
  flush f := (.ok (), f)
  patience _ := 0
  patience_lt f b h := by cases h

end DiskFile

end TraceCapture
