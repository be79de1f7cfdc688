import CMinusF.Numeric.Word
import CMinusF.Text.Unprintable

/-! Types of values, on a machine with 64-bit addresses. -/
namespace CMinusF
open Numeric

inductive Ty where
  | void | i1 | i32 | float | label
  | pointer (elem : Ty)
  | array (length : Int) (elem : Ty)
  | function (result : Ty) (params : List Ty)
  /-- A type of which only the number of its kind is known. -/
  | bare (kind : Int)
deriving Repr, Inhabited

namespace Ty

def kind : Ty → Int
  | .void => 0
  | .i1 => 1
  | .i32 => 2
  | .float => 3
  | .pointer _ => 4
  | .array _ _ => 5
  | .label => 6
  | .function _ _ => 7
  | .bare k => k

mutual
def same : Ty → Ty → Bool
  | .void, .void | .i1, .i1 | .i32, .i32 | .float, .float | .label, .label => true
  | .pointer a, .pointer b => same a b
  | .array m a, .array n b => m == n && same a b
  | .function a ps, .function b qs => same a b && sameAll ps qs
  | .bare k, .bare l => k == l
  | _, _ => false
def sameAll : List Ty → List Ty → Bool
  | [], [] => true
  | a::as, b::bs => same a b && sameAll as bs
  | _, _ => false
end

mutual
theorem same_refl : (a : Ty) → same a a = true
  | .void | .i1 | .i32 | .float | .label => rfl
  | .pointer a => by simp [same,same_refl a]
  | .array n a => by simp [same,same_refl a]
  | .function a ps => by simp [same,same_refl a,sameAll_refl ps]
  | .bare k => by simp [same]
theorem sameAll_refl : (as : List Ty) → sameAll as as = true
  | [] => rfl
  | a::as => by simp [sameAll,same_refl a,sameAll_refl as]
end

mutual
theorem eq_of_same : (a b : Ty) → same a b = true → a = b
  | .void, b, h | .i1, b, h | .i32, b, h | .float, b, h | .label, b, h => by
    cases b <;> simp_all [same]
  | .pointer a, b, h => by
    cases b <;> simp_all [same]
    exact eq_of_same a _ h
  | .array n a, b, h => by
    cases b <;> simp_all [same]
    exact eq_of_same a _ h.2
  | .function a ps, b, h => by
    cases b <;> simp_all [same]
    exact ⟨eq_of_same a _ h.1,eq_of_sameAll ps _ h.2⟩
  | .bare k, b, h => by cases b <;> simp_all [same]
theorem eq_of_sameAll : (as bs : List Ty) → sameAll as bs = true → as = bs
  | [], bs, h => by cases bs <;> simp_all [sameAll]
  | a::as, bs, h => by
    cases bs <;> simp_all [sameAll]
    exact ⟨eq_of_same a _ h.1,eq_of_sameAll as _ h.2⟩
end

theorem same_eq_true_iff (a b : Ty) : same a b = true ↔ a = b :=
  ⟨eq_of_same a b,fun h => h ▸ same_refl a⟩

instance : DecidableEq Ty := fun a b => decidable_of_iff _ (same_eq_true_iff a b)

mutual
/-- A pointer of which only the kind is known has no text, nor has what is spelled with its text. -/
def printable : Ty → Bool
  | .pointer a => printable a
  | .function _ ps => allPrintable ps
  | .bare k => k ≠ 4
  | _ => true
def allPrintable : List Ty → Bool
  | [] => true
  | a::as => printable a && allPrintable as
end

mutual
/-- The text of a type; an element and a result are quoted. -/
def text : Ty → String
  | .void => "void"
  | .i1 => "i1"
  | .i32 => "i32"
  | .float => "float"
  | .label => "label"
  | .pointer a => if printable a then text a ++ "*" else Unprintable.absent.note
  | .array n a => "[" ++ toString n ++ " x " ++ text a ++ "]"
  | .function r ps =>
    if allPrintable ps then text r ++ " (" ++ ", ".intercalate (texts ps) ++ ")"
    else Unprintable.absent.note
  | .bare k =>
    if k = 4 then Unprintable.absent.note
    else if k = 5 then "[0 x <nil>]"
    else if k = 7 then "<nil> ()"
    else "?"
def texts : List Ty → List String
  | [] => []
  | a::as => text a :: texts as
end

/-- Bytes taken, as a 64-bit number: a size out of range wraps round. -/
def size : Ty → Int
  | .i1 => 1
  | .i32 | .float => 4
  | .pointer _ => 8
  | .array n a => wrap64 (n * size a)
  | .bare k => if k = 4 then 8 else 0
  | _ => 0

def elemSize : Ty → Int
  | .pointer a => a.size
  | _ => 0

def isVoid (t : Ty) : Bool := t.kind == 0
def isInteger (t : Ty) : Bool := t.kind == 1 || t.kind == 2
def isFloat (t : Ty) : Bool := t.kind == 3
def isPointer (t : Ty) : Bool := t.kind == 4
def isArray (t : Ty) : Bool := t.kind == 5

/-- Does a value of this type fit in one register? -/
def isScalar (t : Ty) : Bool := t.isInteger || t.isFloat || t.isPointer

/-- What a pointer points at, or an array consists of. -/
def elem? : Ty → Option Ty
  | .pointer a | .array _ a => some a
  | _ => none

/-- The number of elements an array type states; every other type states none. -/
def length : Ty → Int
  | .array n _ => n
  | _ => 0

theorem length_of_isScalar {t : Ty} (h : t.isScalar = true) : t.length = 0 := by
  cases t <;> first | rfl | cases h

end Ty
end CMinusF
