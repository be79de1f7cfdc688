/-! Sets of characters given by ranges of code points. The tables are those of Unicode 17.0. -/
namespace CMinusF.Text

/-- The ranges above a code point, from how many are left out and how many follow each other, by
turns. -/
def runs (start : Nat) : List Nat → List (Nat × Nat)
  | gap::length::rest => (start + gap,start + gap + length - 1) :: runs (start + gap + length) rest
  | _ => []

def inRanges : List (Nat × Nat) → Nat → Bool
  | [], _ => false
  | (lo,hi)::rest, n => (lo ≤ n && n ≤ hi) || inRanges rest n

end CMinusF.Text
