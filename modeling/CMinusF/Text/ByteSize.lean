import CMinusF.Binary32.Decimal

/-! Byte counts for people: four significant digits and a binary unit. -/
namespace CMinusF.Text
open Numeric

/-- Four significant digits of a quotient that is at least one, and the exponent of the last. -/
def fourDigits (num den : Nat) : Nat × Int :=
  let k := (Nat.toDigits 10 (num / den)).length
  let n := nearest (num * tenTo (4 - k)) (den * tenTo (k - 4))
  if n = 10000 then (1000,(k : Int) - 3) else (n,(k : Int) - 4)

/-- The text of `n / 10^places` without zeros at the end of the fraction. -/
def trimmed (n : Nat) : Nat → String
  | 0 => toString n
  | places+1 => if n % 10 = 0 then trimmed (n / 10) places else Binary32.fixedPoint n (places + 1)

/-- A quotient with four significant digits; one of more than four digits before the point is
written with an exponent. -/
def significant (num den : Nat) : String :=
  if num = 0 then "0"
  else
    let (n,e) := fourDigits num den
    if 0 < e then Binary32.scientific n e else trimmed n (-e).toNat

/-- Goes on to the next unit while there is one and the count reaches it. -/
def inUnits (n : Nat) : Nat → String → List String → String
  | den, unit, [] => significant n den ++ unit
  | den, unit, next::units =>
    if 1024 * den ≤ n then inUnits n (1024 * den) next units else significant n den ++ unit

/-- The nearest number that has at most 53 significant bits. -/
def round53 (n : Nat) : Nat :=
  let k := excessBits 53 n
  nearest n (twoTo k) * twoTo k

/-- A byte count in the largest unit it reaches; a negative count stays in bytes. -/
def byteSize (n : Int) : String :=
  let size := round53 n.natAbs
  if n < 0 then "-" ++ significant size 1 ++ "B"
  else inUnits size 1 "B" ["KiB","MiB","GiB","TiB","PiB","EiB","ZiB","YiB"]

end CMinusF.Text
