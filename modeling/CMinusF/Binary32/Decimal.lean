import CMinusF.Binary32

/-! Single precision numbers as decimal text: reading a literal, the fewest digits that read back,
and a fixed number of places. -/
namespace CMinusF
open Numeric

def decimalValue? (cs : List Char) : Option Nat :=
  if cs.all Char.isDigit
    then some (cs.foldl (fun n c => 10 * n + (c.toNat - '0'.toNat)) 0) else none

namespace Binary32

/-- The number nearest to `whole.fraction`; none if it is too large. -/
def ofDecimal? (whole fraction : List Char) : Option Binary32 := do
  let n ← decimalValue? (whole ++ fraction)
  let bits := roundUnits (n * unitsPerOne) (tenTo fraction.length)
  if bits < 0x7f800000 then some (ofSignMagnitude false bits) else none

/-- Reads digits with one point among them; none if there is another character or the number is too
large. -/
def ofLiteral? (cs : List Char) : Option Binary32 :=
  match cs.dropWhile (· ≠ '.') with
  | '.' ::fraction => ofDecimal? (cs.takeWhile (· ≠ '.')) fraction
  | _ => ofDecimal? cs []

/-- A decimal scale: the number of decimal places by which whole numbers are to be divided, or
multiplied. -/
structure Scale where
  num : Nat
  den : Nat

def powerOfTen (e : Int) : Scale := ⟨tenTo e.toNat,tenTo (-e).toNat⟩

/-- Does `digits · 10^e` read back as the number with these magnitude bits? -/
def readsBack (bits digits : Nat) (e : Int) : Bool :=
  let s := powerOfTen e
  roundUnits (digits * s.num * unitsPerOne) s.den == bits

/-- The decimal exponent of the first digit of a positive number of units. -/
def leadingExponent (units : Nat) : Int :=
  let whole := units / unitsPerOne
  if 0 < whole then (Nat.toDigits 10 whole).length - 1
  else
    -- The reciprocal has as many digits as there are zeros before the first digit.
    let r := (unitsPerOne + units - 1) / units
    let d : Int := (Nat.toDigits 10 r).length
    if r = tenTo (d.toNat - 1) then 1 - d else -d

/-- The multiple of `10^e` that lies nearest to the number, a half going to the even one. -/
def nearestMultiple (units : Nat) (e : Int) : Nat :=
  let s := powerOfTen e
  nearest (units * s.den) (s.num * unitsPerOne)

def multipleBelow (units : Nat) (e : Int) : Nat :=
  let s := powerOfTen e
  units * s.den / (s.num * unitsPerOne)

/-- Of the multiples of `10^e` next to the number, the nearest one that reads back. -/
def shortestAt (bits units : Nat) (e : Int) : Option Nat :=
  let below := multipleBelow units e
  let near := nearestMultiple units e
  let far := if near = below then below + 1 else below
  if readsBack bits near e then some near
  else if readsBack bits far e then some far
  else none

/-- The fewest digits that read back, tried from `10^e` on downwards: digits and exponent. -/
def shortestFrom (bits units : Nat) : Nat → Int → Nat × Int
  | 0, e => (nearestMultiple units e,e)
  | n+1, e =>
    match shortestAt bits units e with
    | some d => (d,e)
    | none => shortestFrom bits units n (e - 1)

/-- A finite number other than zero as `digits · 10^e` with the fewest digits that read back. -/
def shortest (bits units : Nat) : Nat × Int := shortestFrom bits units 8 (leadingExponent units)

private def dropTrailingZeros : Nat → Nat → Int → Nat × Int
  | 0, n, e => (n,e)
  | k+1, n, e => if n % 10 = 0 ∧ n ≠ 0 then dropTrailingZeros k (n / 10) (e + 1) else (n,e)

def exponentText (e : Int) : String :=
  let d := toString e.natAbs
  (if e < 0 then "e-" else "e+") ++ (if d.length < 2 then "0" ++ d else d)

/-- One digit, the other digits after a point if there are any, and the exponent. -/
def scientific (digits : Nat) (e : Int) : String :=
  let (n,e) := dropTrailingZeros (Nat.toDigits 10 digits).length digits e
  match Nat.toDigits 10 n with
  | [] => ""
  | [d] => String.singleton d ++ exponentText e
  | d::ds => String.ofList (d :: '.' :: ds) ++ exponentText (e + ds.length)

def exponentForm (x : Binary32) : String :=
  match x.value with
  | .nan => "NaN"
  | .infinite s => if s then "-Inf" else "+Inf"
  | .finite s n =>
    (if s then "-" else "") ++
      if n = 0 then "0e+00"
      else
        let (d,e) := shortest x.magnitudeBits n
        scientific d e

/-- The text of `n / tenTo places`, all places written. -/
def fixedPoint (n places : Nat) : String :=
  let whole := toString (n / tenTo places)
  let fraction := toString (n % tenTo places)
  whole ++ "." ++ String.ofList (List.replicate (places - fraction.length) '0') ++ fraction

/-- Six places after the point, the exact value rounded to the nearest, a half to the even digit. -/
def sixPlaces (x : Binary32) : String :=
  match x.value with
  | .nan => "NaN"
  | .infinite s => if s then "-Inf" else "+Inf"
  | .finite s n => (if s then "-" else "") ++ fixedPoint (nearest (n * 1000000) unitsPerOne) 6

end Binary32
end CMinusF
