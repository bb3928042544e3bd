import DisciplinedConvex.Text.Hidden

/-! # Quoted text

A text between quotation marks. A quotation mark or backslash inside follows a backslash, the common
control characters have a letter, and any other hidden character is given by its code point in
hexadecimal.
-/

namespace DisciplinedConvex
set_option autoImplicit false

namespace Text

/-- One character inside quotation marks. -/
def escape (c : Char) : List Char :=
  match c with
  | '\x00' => ['\\', '0']
  | '\t' => ['\\', 't']
  | '\r' => ['\\', 'r']
  | '\n' => ['\\', 'n']
  | '"' => ['\\', '"']
  | '\\' => ['\\', '\\']
  | c => if isHidden c then ['\\', 'u', '\x7b'] ++ Nat.toDigits 16 c.toNat ++ ['\x7d'] else [c]

def quoted (s : String) : String := .ofList ('"' :: s.toList.flatMap escape ++ ['"'])

end Text

end DisciplinedConvex
