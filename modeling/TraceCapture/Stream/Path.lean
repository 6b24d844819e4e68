import TraceCapture.Stream.Error

set_option autoImplicit false

namespace TraceCapture

abbrev DiskPlace := List String

def workingDirectory : DiskPlace := ["tmp", "work"]

namespace DiskPlace

def writtenSize (place : DiskPlace) : Nat :=
  place.foldl (fun n name => n + 1 + name.utf8ByteSize) 0

def nameLimit : Nat := 255

/-- The place to which a name leads from a directory. The root is above itself. -/
def follow (here : DiskPlace) (name : String) : Except IoError DiskPlace :=
  if name = "." then .ok here
  else if name = ".." then .ok here.dropLast
  else if nameLimit < name.utf8ByteSize then .error .nameTooLong
  else .ok (here ++ [name])

end DiskPlace

structure DiskPath where
  absolute : Bool
  names : List String
  directoryOnly : Bool
  size : Nat
  deriving DecidableEq, Repr

namespace DiskPath

def ofString (s : String) : DiskPath :=
  ⟨s.startsWith "/", (s.splitOn "/").filter (· ≠ ""), s.endsWith "/", s.utf8ByteSize⟩

def start (path : DiskPath) : DiskPlace := if path.absolute then [] else workingDirectory

/-- No path has so many bytes, counted from the root. -/
def sizeLimit : Nat := 4096

def fullSize (path : DiskPath) : Nat :=
  if path.absolute then path.size else path.start.writtenSize + 1 + path.size

def fault (path : DiskPath) : Option IoError :=
  if path.names.any (·.contains '\x00') then some .nulInPath
  else if sizeLimit ≤ path.fullSize then some .nameTooLong
  else none

def lead (path : DiskPath) : List String := path.names.dropLast

/-- The last name. A path without names ends where it starts. -/
def last (path : DiskPath) : String := path.names.getLastD "."

end DiskPath

end TraceCapture
