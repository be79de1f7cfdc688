import CMinusF.Binary32
import CMinusF.Graph.Table

/-! Values at run time and the memory they live in. -/
namespace CMinusF

/-- A cell of an object; no object is the null address. -/
structure Address where
  object : Option Nat
  index : Int
deriving DecidableEq, Repr

def Address.null : Address := ⟨none,0⟩

/-- A value of any type; the parts it does not use are zero. -/
structure Datum where
  int : Int
  float : Binary32
  address : Address
deriving DecidableEq, Repr

namespace Datum

def zero : Datum := ⟨0,⟨0⟩,.null⟩

instance : Inhabited Datum := ⟨zero⟩

def ofInt (n : Int) : Datum := { zero with int := n }
def ofFloat (x : Binary32) : Datum := { zero with float := x }
def ofAddress (a : Address) : Datum := { zero with address := a }
def ofBool (b : Bool) : Datum := ofInt (if b then 1 else 0)

end Datum

/-- A row of cells, zero at first. -/
structure Object where
  length : Int
  cells : Table Datum
deriving Repr, Inhabited

namespace Object

/-- The most cells an object can have: each takes 32 bytes, and there are 2^48 addresses. -/
def limit : Int := 8796093022208

def zeros (length : Int) : Object := ⟨max length 1,.empty⟩

/-- An object with room for a value of a type that states this length, if there can be one. -/
def new (length : Int) : Option Object := if length ≤ limit then some (zeros length) else none

end Object

abbrev Heap := Table Object

namespace Heap

def extend (h : Heap) (x : Object) : Heap × Address :=
  let n := h.size
  (h.push x,⟨some n,0⟩)

def allocate (h : Heap) (length : Int) : Option (Heap × Address) :=
  (Object.new length).map h.extend

theorem allocate_of_le {length : Int} (h : Heap) (hl : length ≤ Object.limit) :
    h.allocate length = some (h.extend (.zeros length)) := by
  rw [allocate,Object.new,if_pos hl]
  rfl

theorem allocate_of_lt {length : Int} (h : Heap) (hl : Object.limit < length) :
    h.allocate length = none := by
  rw [allocate,Object.new,if_neg (Int.not_le.mpr hl)]
  rfl

/-- The object and cell an address denotes, if it lies within an object. -/
def cell? (h : Heap) (a : Address) : Option (Nat × Nat) := do
  let o ← a.object
  if 0 ≤ a.index ∧ a.index < (h.get o).length then some (o,a.index.toNat) else none

theorem cell?_eq_some_iff {h : Heap} {a : Address} {o i : Nat} :
    h.cell? a = some (o,i) ↔
      a.object = some o ∧ 0 ≤ a.index ∧ a.index < (h.get o).length ∧ a.index.toNat = i := by
  obtain ⟨obj,n⟩ := a
  cases obj with
  | none => simp [cell?]
  | some p =>
    simp only [cell?,Option.bind_eq_bind,Option.bind_some]
    split <;> grind

def read? (h : Heap) (a : Address) : Option Datum :=
  (h.cell? a).map fun (o,i) => (h.get o).cells.get i

def write (h : Heap) (object cell : Nat) (v : Datum) : Heap :=
  h.modify object fun x => { x with cells := x.cells.set cell v }

@[simp] theorem length_write (h : Heap) (o i : Nat) (v : Datum) (p : Nat) :
    ((h.write o i v).get p).length = (h.get p).length := by
  simp only [write,Table.get_modify]
  split <;> simp_all

theorem get_cells_write (h : Heap) (o i : Nat) (v : Datum) (p j : Nat) :
    ((h.write o i v).get p).cells.get j = if o = p ∧ i = j then v else (h.get p).cells.get j := by
  simp only [write,Table.get_modify]
  by_cases hp : o = p
  · subst hp; simp [Table.get_set]
  · simp [hp]

end Heap
end CMinusF
