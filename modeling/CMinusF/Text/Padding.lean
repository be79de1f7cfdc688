/-! Columns: texts made at least so many characters long with blanks. -/
namespace CMinusF.Text

def blanks (n : Nat) : String := String.ofList (List.replicate n ' ')

def padLeft (n : Nat) (s : String) : String := blanks (n - s.length) ++ s

def padRight (n : Nat) (s : String) : String := s ++ blanks (n - s.length)

end CMinusF.Text
