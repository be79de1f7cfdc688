import CMinusF.Text.Graphic

/-! Text between double quotes, with everything that would not print shown as an escape. -/
namespace CMinusF.Text

/-- The last `width` hexadecimal digits of a number, in lower case. -/
def hexDigits : Nat → Nat → List Char
  | 0, _ => []
  | width+1, n => hexDigits width (n / 16) ++ [Nat.digitChar (n % 16)]

/-- The short escapes; the quote and the backslash are among them. -/
def shortEscape : Char → Option Char
  | '\x07' => some 'a'
  | '\x08' => some 'b'
  | '\x0c' => some 'f'
  | '\n' => some 'n'
  | '\r' => some 'r'
  | '\t' => some 't'
  | '\x0b' => some 'v'
  | '\\' => some '\\'
  | '"' => some '"'
  | _ => none

def escape (c : Char) : List Char :=
  match shortEscape c with
  | some e => ['\\',e]
  | none =>
    if isPrintable c then [c]
    else if c.toNat < 0x80 then '\\' :: 'x' :: hexDigits 2 c.toNat
    else if c.toNat < 0x10000 then '\\' :: 'u' :: hexDigits 4 c.toNat
    else '\\' :: 'U' :: hexDigits 8 c.toNat

def quoted (s : String) : String :=
  String.ofList ('"' :: s.toList.flatMap escape ++ ['"'])

end CMinusF.Text
