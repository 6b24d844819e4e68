import TraceCapture.Word

set_option autoImplicit false

namespace TraceCapture.Text

def digitsValue? (n : Nat) : List Char → Option Nat
  | [] => some n
  | c :: cs => if c.isDigit then digitsValue? (10 * n + (c.toNat - 48)) cs else none

def size? (cs : List Char) : Option Nat :=
  let digits := match cs with | '+' :: rest => rest | _ => cs
  match digits with
  | [] => none
  | _ => (digitsValue? 0 digits).filter (· < Word.size)

end TraceCapture.Text
