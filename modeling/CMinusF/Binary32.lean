import CMinusF.Numeric.Nearest
import CMinusF.Numeric.Power

/-! Single precision numbers by their bits. A finite number is a whole multiple of the smallest
positive one, so arithmetic is exact on whole numbers and rounds once, to nearest even. -/
namespace CMinusF
open Numeric

structure Binary32 where
  bits : UInt32
deriving DecidableEq, Repr

namespace Binary32

def nan : Binary32 := ⟨0x7fc00000⟩

instance : Inhabited Binary32 := ⟨⟨0⟩⟩

def signBit (x : Binary32) : Bool := decide (0x80000000 ≤ x.bits.toNat)

def exponentField (x : Binary32) : Nat := x.bits.toNat / twoTo 23 % 256

def fractionField (x : Binary32) : Nat := x.bits.toNat % twoTo 23

def magnitudeBits (x : Binary32) : Nat := x.bits.toNat % 0x80000000

def isNaN (x : Binary32) : Bool := decide (0x7f800000 < x.magnitudeBits)

def isInfinite (x : Binary32) : Bool := decide (x.magnitudeBits = 0x7f800000)

/-- How many times the smallest positive number, 2^-149, makes up the magnitude of a finite number.
-/
def units (x : Binary32) : Nat :=
  if x.exponentField = 0 then x.fractionField
  else (twoTo 23 + x.fractionField) * twoTo (x.exponentField - 1)

/-- One unit is 1 / `unitsPerOne`. -/
def unitsPerOne : Nat := twoTo 149

inductive Value where
  | nan
  | infinite (negative : Bool)
  | finite (negative : Bool) (units : Nat)
deriving DecidableEq, Repr

def value (x : Binary32) : Value :=
  if x.isNaN then .nan
  else if x.isInfinite then .infinite x.signBit
  else .finite x.signBit x.units

def ofSignMagnitude (negative : Bool) (magnitudeBits : Nat) : Binary32 :=
  ⟨UInt32.ofNat (magnitudeBits + if negative then 0x80000000 else 0)⟩

def infinity (negative : Bool) : Binary32 := ofSignMagnitude negative 0x7f800000

/-- The magnitude bits of the number nearest to `num / den` units; above the range, those of
infinity. -/
def roundUnits (num den : Nat) : Nat :=
  let shift := excessBits 24 (num / den)
  min (shift * twoTo 23 + nearest num (den * twoTo shift)) 0x7f800000

/-- The number nearest to `num / den` units. -/
def ofUnits (negative : Bool) (num den : Nat) : Binary32 :=
  ofSignMagnitude negative (roundUnits num den)

def neg (x : Binary32) : Binary32 := ⟨x.bits ^^^ 0x80000000⟩

private def signedUnits (negative : Bool) (n : Nat) : Int := if negative then -n else n

/-- A sum of zeros is negative only if both are; any other sum that cancels is positive. -/
def add (x y : Binary32) : Binary32 :=
  match x.value, y.value with
  | .nan, _ | _, .nan => nan
  | .infinite s, .infinite t => if s = t then infinity s else nan
  | .infinite s, .finite _ _ => infinity s
  | .finite _ _, .infinite t => infinity t
  | .finite s m, .finite t n =>
    let sum := signedUnits s m + signedUnits t n
    if sum = 0 then ofSignMagnitude (s && t) 0
    else ofUnits (decide (sum < 0)) sum.natAbs 1

def sub (x y : Binary32) : Binary32 := x.add y.neg

def mul (x y : Binary32) : Binary32 :=
  match x.value, y.value with
  | .nan, _ | _, .nan => nan
  | .infinite s, .infinite t => infinity (s != t)
  | .infinite s, .finite t n | .finite t n, .infinite s => if n = 0 then nan else infinity (s != t)
  | .finite s m, .finite t n => ofUnits (s != t) (m * n) unitsPerOne

def div (x y : Binary32) : Binary32 :=
  match x.value, y.value with
  | .nan, _ | _, .nan => nan
  | .infinite _, .infinite _ => nan
  | .infinite s, .finite t _ => infinity (s != t)
  | .finite s _, .infinite t => ofSignMagnitude (s != t) 0
  | .finite s m, .finite t n =>
    if n = 0 then if m = 0 then nan else infinity (s != t)
    else ofUnits (s != t) (m * unitsPerOne) n

/-- The place of a number in the order of the reals; infinities lie beyond every finite number, the
two zeros at one place, and what is not a number has none. -/
def rank (x : Binary32) : Option Int :=
  match x.value with
  | .nan => none
  | .infinite s => some (signedUnits s (twoTo 277))
  | .finite s n => some (signedUnits s n)

def lt (x y : Binary32) : Bool :=
  match x.rank, y.rank with
  | some a, some b => a < b
  | _, _ => false

def le (x y : Binary32) : Bool :=
  match x.rank, y.rank with
  | some a, some b => a ≤ b
  | _, _ => false

/-- Equality of values: not a number differs from itself. -/
def eq (x y : Binary32) : Bool :=
  match x.rank, y.rank with
  | some a, some b => a = b
  | _, _ => false

def ofInt (n : Int) : Binary32 := ofUnits (decide (n < 0)) (n.natAbs * unitsPerOne) 1

def truncate? (x : Binary32) : Option Int :=
  match x.value with
  | .finite s n => some (signedUnits s (n / unitsPerOne))
  | _ => none

end Binary32
end CMinusF
