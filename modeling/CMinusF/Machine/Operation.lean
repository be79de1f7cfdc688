import CMinusF.Graph.Basic
import CMinusF.Machine.Datum
import CMinusF.Machine.Fault
import CMinusF.Numeric.Word

/-! The effect of instructions that stay in their block. -/
namespace CMinusF
open Numeric
namespace Operation

/-- Arithmetic on the low 32 bits; division goes towards zero. -/
def arith (op : Arith) (x y : Int) : Except Fault Int :=
  let x := wrap32 x
  let y := wrap32 y
  match op with
  | .add => .ok (wrap32 (x + y))
  | .sub => .ok (wrap32 (x - y))
  | .mul => .ok (wrap32 (x * y))
  | .div => if y = 0 then .error .divideByZero else .ok (wrap32 (x.tdiv y))

def floatArith (op : Arith) (x y : Binary32) : Binary32 :=
  match op with
  | .add => x.add y
  | .sub => x.sub y
  | .mul => x.mul y
  | .div => x.div y

def compare (rel : Relation) (x y : Int) : Bool :=
  match rel with
  | .ge => y ≤ x
  | .gt => y < x
  | .le => x ≤ y
  | .lt => x < y
  | .eq => x = y
  | .ne => x ≠ y

def floatCompare (rel : Relation) (x y : Binary32) : Bool :=
  match rel with
  | .ge => y.le x
  | .gt => y.lt x
  | .le => x.le y
  | .lt => x.lt y
  | .eq => x.eq y
  | .ne => !x.eq y

/-- The whole part, if it fits in 32 bits; otherwise the least number. -/
def truncate (x : Binary32) : Int :=
  match x.truncate? with
  | some n => if wrap32 n = n then n else -2147483648
  | none => -2147483648

/-- An instruction other than a branch, a return or a call: the memory after it and the value it
computes from its operands. -/
def execute (x : Instr) (ops : List Datum) (heap : Heap) : Heap × Except Fault Datum :=
  let op (n : Nat) : Datum := ops.getD n .zero
  match x.op with
  | .int o => (heap,(arith o (op 0).int (op 1).int).map .ofInt)
  | .float o => (heap,.ok (.ofFloat (floatArith o (op 0).float (op 1).float)))
  | .icmp r => (heap,.ok (.ofBool (compare r (op 0).int (op 1).int)))
  | .fcmp r => (heap,.ok (.ofBool (floatCompare r (op 0).float (op 1).float)))
  | .alloca =>
    match heap.allocate (x.object.getD .void).length with
    | some (heap,a) => (heap,.ok (.ofAddress a))
    | none => (heap,.error .tooLong)
  | .load =>
    match heap.read? (op 0).address with
    | some v => (heap,.ok v)
    | none => (heap,.error .outOfBounds)
  | .store =>
    match heap.cell? (op 1).address with
    | some (o,i) => (heap.write o i (op 0),.ok .zero)
    | none => (heap,.error .outOfBounds)
  | .gep =>
    let a := (op 0).address
    (heap,.ok (.ofAddress ⟨a.object,a.index + wrap32 (op (ops.length - 1)).int⟩))
  | .zext => (heap,.ok (.ofInt ((op 0).int % 2)))
  | .fptosi => (heap,.ok (.ofInt (truncate (op 0).float)))
  | .sitofp => (heap,.ok (.ofFloat (.ofInt (wrap32 (op 0).int))))
  | o => (heap,.error (.notExecutable o.name))

theorem execute_alloca_of_le {x : Instr} (hop : x.op = .alloca)
    (hl : (x.object.getD .void).length ≤ Object.limit) (ops : List Datum) (heap : Heap) :
    execute x ops heap = ((heap.extend (.zeros (x.object.getD .void).length)).1,
      .ok (.ofAddress ⟨some heap.size,0⟩)) := by
  simp only [execute,hop,heap.allocate_of_le hl]
  rfl

theorem execute_alloca_of_lt {x : Instr} (hop : x.op = .alloca)
    (hl : Object.limit < (x.object.getD .void).length) (ops : List Datum) (heap : Heap) :
    execute x ops heap = (heap,.error .tooLong) := by
  simp only [execute,hop,heap.allocate_of_lt hl]

end Operation
end CMinusF
