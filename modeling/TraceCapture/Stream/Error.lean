set_option autoImplicit false

namespace TraceCapture

inductive IoError where
  | notFound
  | permissionDenied
  | alreadyExists
  | isADirectory
  | notADirectory
  | nameTooLong
  | nulInPath
  | invalidInput
  /-- A sink took no byte of a non-empty buffer. -/
  | writeZero
  | unexpectedEof
  | invalidData (text : String)
  | other (text : String)
  deriving DecidableEq, Repr

namespace IoError

def message : IoError → String
  | notFound => "No such file or directory (os error 2)"
  | permissionDenied => "Permission denied (os error 13)"
  | alreadyExists => "File exists (os error 17)"
  | notADirectory => "Not a directory (os error 20)"
  | isADirectory => "Is a directory (os error 21)"
  | nameTooLong => "File name too long (os error 36)"
  | nulInPath => "file name contained an unexpected NUL byte"
  | invalidInput => "Invalid argument (os error 22)"
  | writeZero => "failed to write whole buffer"
  | unexpectedEof => "failed to fill whole buffer"
  | invalidData text => text
  | other text => text

end IoError

end TraceCapture
