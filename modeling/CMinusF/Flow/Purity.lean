import CMinusF.Graph.Edit

/-! Functions without side effects: they touch only memory of their own, cannot fault, and call only
such functions. A call of one may run where it never ran before. -/
namespace CMinusF

namespace Module

def instrs (m : Module) (f : FuncId) : List InstrId :=
  (m.func f).layout.flatMap fun b => (m.block b).instrs

/-- Can the instruction run on a path where it did not run before? Of those that leave memory alone
only a division can fault, and only if its divisor may be zero. -/
def speculatable (m : Module) (i : InstrId) : Bool :=
  match (m.instr i).op with
  | .int .div =>
    match m.operand i 1 with
    | .literal c =>
      match (m.literal c).value with
      | .int n => n ≠ 0
      | _ => false
    | _ => false
  | _ => true

/-- Strips at most `n` steps of address arithmetic. -/
def rootFrom (m : Module) : Nat → Operand → Operand
  | 0, v => v
  | n+1, v =>
    match v with
    | .instr i => if (m.instr i).op = .gep then rootFrom m n (m.operand i 0) else v
    | _ => v

/-- The object an address points into: an `alloca`, a global, an argument, or what produced a
pointer of unknown origin. -/
def memoryRoot (m : Module) (v : Operand) : Operand := m.rootFrom (m.instrTable.size + 1) v

def isLocalObject (m : Module) : Operand → Bool
  | .instr i => (m.instr i).op = .alloca
  | _ => false

/-- The address through which an instruction reads or writes memory. -/
def address? (m : Module) (i : InstrId) : Option Operand :=
  match (m.instr i).op with
  | .load => some (m.operand i 0)
  | .store => some (m.operand i 1)
  | _ => none

def harmless (m : Module) (i : InstrId) : Bool :=
  m.speculatable i && (m.address? i).all fun p => m.isLocalObject (m.memoryRoot p)

end Module

structure Purity where
  pure : List FuncId
deriving Repr, Inhabited

namespace Purity

def isPure (p : Purity) (f : FuncId) : Bool := f ∈ p.pure

def set (p : Purity) (f : FuncId) (pure : Bool) : Purity :=
  let others := p.pure.filter (· ≠ f)
  ⟨if pure then f :: others else others⟩

def callees (m : Module) (f : FuncId) : List FuncId := (m.instrs f).filterMap m.callee?

/-- What is known in the middle of a sweep, and whether the sweep has changed it. -/
structure Sweep where
  known : Purity
  changed : Bool

def visitInstr (m : Module) (f : FuncId) (s : Sweep) (i : InstrId) : Sweep :=
  match m.callee? i with
  | none => s
  | some g => if s.known.isPure g then s else ⟨s.known.set f false,true⟩

def visit (m : Module) (s : Sweep) (f : FuncId) : Sweep :=
  if s.known.isPure f then (m.instrs f).foldl (visitInstr m f) s else s

/-- Visits all functions in order: what is found of one is known when the next is visited. -/
def sweep (m : Module) (p : Purity) : Sweep := m.funcs.foldl (visit m) ⟨p,false⟩

/-! Visiting a function drops it if it calls one that is not pure, and does nothing else. -/

theorem isPure_set_false (p : Purity) (f g : FuncId) :
    (p.set f false).isPure g = (p.isPure g && g ≠ f) := by
  simp [set,isPure]

theorem set_false_idem (p : Purity) (f : FuncId) :
    (p.set f false).set f false = p.set f false := by
  simp [set]

theorem foldl_visitInstr (m : Module) (f : FuncId) (is : List InstrId) (s : Sweep) :
    is.foldl (visitInstr m f) s =
      if (is.filterMap m.callee?).all s.known.isPure then s else ⟨s.known.set f false,true⟩ := by
  induction is generalizing s with
  | nil => rfl
  | cons i is ih =>
    rw [List.foldl_cons,ih,visitInstr]
    cases hg : m.callee? i with
    | none => simp [hg]
    | some g =>
      cases hp : s.known.isPure g <;> simp [hg,hp,set_false_idem]

theorem visit_eq (m : Module) (s : Sweep) (f : FuncId) :
    visit m s f = if s.known.isPure f ∧ (callees m f).all s.known.isPure = false
      then ⟨s.known.set f false,true⟩ else s := by
  rw [visit,foldl_visitInstr,← callees]
  cases s.known.isPure f <;> cases (callees m f).all s.known.isPure <;> rfl

theorem length_set_false {p : Purity} {f : FuncId} (h : p.isPure f = true) :
    (p.set f false).pure.length < p.pure.length := by
  refine Nat.lt_of_le_of_ne (List.length_filter_le ..) fun he => ?_
  have := List.length_filter_eq_length_iff.mp he f (of_decide_eq_true h)
  simp at this

/-- A sweep that changes anything drops a function. -/
theorem length_foldl_visit (m : Module) (fs : List FuncId) (s : Sweep) :
    (fs.foldl (visit m) s).known.pure.length ≤ s.known.pure.length ∧
      ((fs.foldl (visit m) s).changed = true → s.changed = false →
        (fs.foldl (visit m) s).known.pure.length < s.known.pure.length) := by
  induction fs generalizing s with
  | nil => exact ⟨Nat.le_refl _,fun h h' => by simp [h'] at h⟩
  | cons f fs ih =>
    rw [List.foldl_cons,visit_eq]
    split
    · rename_i hf
      have hset := length_set_false hf.1
      obtain ⟨hle,-⟩ := ih ⟨s.known.set f false,true⟩
      exact ⟨Nat.le_trans hle (Nat.le_of_lt hset),fun _ _ => Nat.lt_of_le_of_lt hle hset⟩
    · exact ih s

def settle (m : Module) (p : Purity) : Purity :=
  let s := sweep m p
  if s.changed then settle m s.known else s.known
termination_by p.pure.length
decreasing_by exact (length_foldl_visit m m.funcs ⟨p,false⟩).2 (by assumption) rfl

end Purity

/-- The pure functions of a module; declarations are taken for impure. -/
def Module.purity (m : Module) : Purity :=
  Purity.settle m ⟨m.funcs.filter fun f =>
    !(m.func f).isDeclaration && (m.instrs f).all m.harmless⟩

end CMinusF
