/-! Texts that cannot be written because they speak of something that is not there, and the note
that stands for such a text where it is quoted in another. -/
namespace CMinusF

inductive Unprintable where
  | absent
  /-- A row has no place of that number. -/
  | outOfRange (index : Int) (length : Nat)
  /-- Something stands where only a block can. -/
  | notBlock (found : String)
deriving DecidableEq, Repr

namespace Unprintable

def message : Unprintable → String
  | .absent => "runtime error: invalid memory address or nil pointer dereference"
  | .outOfRange i n =>
    s!"runtime error: index out of range [{i}]" ++ if i < 0 then "" else s!" with length {n}"
  | .notBlock found => s!"interface conversion: ir.Value is {found}, not *ir.BasicBlock"

def note (e : Unprintable) : String := "%!s(PANIC=String method: " ++ e.message ++ ")"

def quote : Except Unprintable String → String
  | .ok s => s
  | .error e => e.note

end Unprintable
end CMinusF
