import CMinusF.Text.Blank
import CMinusF.Text.Quoted

/-! Reading whole numbers from an input text. A number may carry a sign and a prefix that tells its
base, and underscores may stand between its digits. -/
namespace CMinusF

inductive InputError where
  | endOfInput
  | expectedInteger
  | badSyntax (token : String)
  | outOfRange (token : String)
  | overflow (token : String)
deriving DecidableEq, Repr

def InputError.message : InputError → String
  | .endOfInput => "EOF"
  | .expectedInteger => "expected integer"
  | .badSyntax t => s!"strconv.ParseInt: parsing {Text.quoted t}: invalid syntax"
  | .outOfRange t => s!"strconv.ParseInt: parsing {Text.quoted t}: value out of range"
  | .overflow t => s!"integer overflow on token {t}"

namespace Input

def digitValue (c : Char) : Nat :=
  if c.isDigit then c.toNat - '0'.toNat
  else if c.isLower then c.toNat - 'a'.toNat + 10
  else c.toNat - 'A'.toNat + 10

/-- May the character stand in a number of this base? The underscore may stand in any. -/
def inNumber (base : Nat) (c : Char) : Bool :=
  c == '_' || (c.isAlphanum && digitValue c < base)

def takeSign : List Char → List Char × List Char
  | '+' :: cs => (['+'],cs)
  | '-' :: cs => (['-'],cs)
  | cs => ([],cs)

/-- The base a letter after a leading zero stands for. -/
def letterBase? : Char → Option Nat
  | 'b' | 'B' => some 2
  | 'o' | 'O' => some 8
  | 'x' | 'X' => some 16
  | _ => none

/-- A token: its prefix with the sign left out, its digits and underscores, and the base. -/
structure Numeral where
  sign : List Char
  mark : List Char
  digits : List Char
  base : Nat

def Numeral.token (n : Numeral) : String := String.ofList (n.sign ++ n.mark ++ n.digits)

/-- Takes a numeral off a text that starts with no white space. A leading zero makes it octal unless
a letter names another base; without one a digit is required. -/
def takeNumeral (cs : List Char) : Except InputError Numeral × List Char :=
  let (sign,rest) := takeSign cs
  let finish (mark : List Char) (base : Nat) (rest : List Char) :
    Except InputError Numeral × List Char :=
    (.ok ⟨sign,mark,rest.takeWhile (inNumber base),base⟩,rest.dropWhile (inNumber base))
  match rest with
  | [] => (.error .endOfInput,[])
  | '0' :: c :: more =>
    match letterBase? c with
    | some base => finish ['0',c] base more
    | none => finish ['0'] 8 (c :: more)
  | ['0'] => finish ['0'] 8 []
  | c :: more => if inNumber 10 c then finish [] 10 (c :: more) else (.error .expectedInteger,rest)

/-- Underscores must stand between digits; a prefix counts as a digit before the first. -/
def separated : Bool → List Char → Bool
  | afterDigit, [] => afterDigit
  | afterDigit, c::cs => if c = '_' then afterDigit && separated false cs else separated true cs

/-- The value of the digits, unless it passes 2^64 - 1. -/
def magnitude? (base : Nat) (digits : List Char) : Option Nat :=
  (digits.filter (· ≠ '_')).foldl (fun n c => do
    let n := (← n) * base + digitValue c
    if n < 18446744073709551616 then some n else none) (some 0)

def Numeral.value (n : Numeral) : Except InputError Int :=
  if n.mark.length = 2 ∧ n.digits = [] then .error (.badSyntax n.token)
  else
    match magnitude? n.base n.digits with
    | none => .error (.outOfRange n.token)
    | some k =>
      if '_' ∈ n.digits ∧ !separated (!n.mark.isEmpty) n.digits then .error (.badSyntax n.token)
      else
        let v : Int := if n.sign = ['-'] then -k else k
        if v < -9223372036854775808 ∨ 9223372036854775807 < v then .error (.outOfRange n.token)
        else if v < -2147483648 ∨ 2147483647 < v then .error (.overflow n.token)
        else .ok v

/-- Reads one number that fits in 32 bits; gives back what is left of the text in either case. -/
def readInteger (cs : List Char) : Except InputError Int × List Char :=
  match cs.dropWhile Text.isBlank with
  | [] => (.error .endOfInput,[])
  | rest =>
    match takeNumeral rest with
    | (.ok n,rest) => (n.value,rest)
    | (.error e,rest) => (.error e,rest)

end Input
end CMinusF
