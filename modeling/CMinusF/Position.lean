/-! Positions in a source text, by line and column. -/
namespace CMinusF

structure Position where
  line : Nat
  column : Nat
deriving DecidableEq, Repr

namespace Position

def start : Position := ⟨1,0⟩

/-- Reading a character moves to it; a newline stands at column zero of the line it opens. -/
def step (p : Position) (c : Char) : Position :=
  if c = '\n' then ⟨p.line + 1,0⟩ else ⟨p.line,p.column + 1⟩

def after (p : Position) (cs : List Char) : Position := cs.foldl step p

@[simp] theorem after_nil (p : Position) : p.after [] = p := rfl
@[simp] theorem after_cons (p : Position) (c : Char) (cs : List Char) :
    p.after (c::cs) = (p.step c).after cs := rfl
@[simp] theorem after_append (p : Position) (cs ds : List Char) :
    p.after (cs ++ ds) = (p.after cs).after ds := by simp [after]

def text (p : Position) : String := s!"{p.line}:{p.column}"

end Position
end CMinusF
