import CMinusF.Proofs.Graph.Formed

/-! What promoting locals to values does to the code of a function, said without the way it is done:
which value stands for each load, where new phis are, and what each local is worth at the ends of
the blocks. -/
namespace CMinusF
variable {a i : InstrId}

structure Plan where
  promoted : InstrId → Bool
  value : InstrId → Operand
  newPhis : BlockId → List InstrId
  localOf : InstrId → InstrId
  /-- The values of the locals after the phis of a block, and at its end; none before the first
  store. -/
  start : BlockId → InstrId → Option Operand
  finish : BlockId → InstrId → Option Operand

namespace Plan
variable (P : Plan) (m : Module)

def target? : Operand → Option InstrId
  | .instr a => if P.promoted a then some a else none
  | _ => none

def loadOf? (i : InstrId) : Option InstrId :=
  if (m.instr i).op = .load then P.target? (m.operand i 0) else none

def storeOf? (i : InstrId) : Option InstrId :=
  if (m.instr i).op = .store then P.target? (m.operand i 1) else none

def keeps (i : InstrId) : Bool := !P.promoted i && (P.loadOf? m i).isNone && (P.storeOf? m i).isNone

def subst : Operand → Operand
  | .instr l => if (P.loadOf? m l).isSome then P.value l else .instr l
  | v => v

@[simp] theorem subst_block (b : BlockId) : P.subst m (.block b) = .block b := rfl

@[simp] theorem subst_func (g : FuncId) : P.subst m (.func g) = .func g := rfl

def after (V : InstrId → Option Operand) (i x : InstrId) : Option Operand :=
  if P.storeOf? m i = some x then some (P.subst m (m.operand i 0)) else V x

def through (V : InstrId → Option Operand) (is : List InstrId) : InstrId → Option Operand :=
  is.foldl (P.after m) V

/-- The instructions of a block with the new phis among them and before any is taken away. -/
def line (b : BlockId) : List InstrId := m.phis b ++ P.newPhis b ++ m.body b

@[simp] theorem target?_eq_some {v : Operand} :
    P.target? v = some a ↔ v = .instr a ∧ P.promoted a = true := by
  cases v <;> simp [target?]
  grind

theorem loadOf?_eq_some : P.loadOf? m i = some a ↔
    (m.instr i).op = .load ∧ m.operand i 0 = .instr a ∧ P.promoted a = true := by
  unfold loadOf?
  split <;> simp_all

theorem storeOf?_eq_some : P.storeOf? m i = some a ↔
    (m.instr i).op = .store ∧ m.operand i 1 = .instr a ∧ P.promoted a = true := by
  unfold storeOf?
  split <;> simp_all

theorem keeps_iff :
    P.keeps m i = true ↔ P.promoted i = false ∧ P.loadOf? m i = none ∧ P.storeOf? m i = none := by
  simp [keeps,and_assoc]

theorem after_of_storeOf?_none (h : P.storeOf? m i = none) (V : InstrId → Option Operand) :
    P.after m V i = V := funext fun x => by simp [after,h]

/-- Every instruction is kept, or a promoted local, or a load or a store of one. -/
theorem keeps_or (i : InstrId) : P.keeps m i = true ∨ P.promoted i = true ∨
    (∃ a, P.loadOf? m i = some a) ∨
    ∃ a, P.storeOf? m i = some a := by
  rw [keeps_iff]
  cases P.promoted i
  · cases P.loadOf? m i
    · cases P.storeOf? m i <;> simp
    · simp
  · simp

end Plan

/-- A value is what a local is worth; what was never stored may be any undefined value. -/
def Feeds (m : Module) (o : Option Operand) (v : Operand) : Prop :=
  o = some v ∨ o = none ∧ ∃ c t, v = .literal c ∧ (m.literal c).value = .undef t

/-- Loads of promoted locals among the instructions stand for what the locals are worth there. -/
def LoadsFed (m m' : Module) (P : Plan) : (InstrId → Option Operand) → List InstrId → Prop
  | _, [] => True
  | V, i::is =>
    (∀ a, P.loadOf? m i = some a → Feeds m' (V a) (P.value i)) ∧ LoadsFed m m' P (P.after m V i) is

/-- `m'` has the function of `m` with its locals promoted. -/
structure Promotes (m m' : Module) (f : FuncId) (e : BlockId) (P : Plan) : Prop where
  layout : (m'.func f).layout = (m.func f).layout
  block : ∀ b ∈ (m.func f).layout, (m'.block b).instrs =
    m.phis b ++ P.newPhis b ++ (m.body b).filter (P.keeps m)
  instr : ∀ i ∈ m.instrs f, P.keeps m i = true → (m'.instr i).op = (m.instr i).op ∧
    (m'.instr i).type = (m.instr i).type ∧ (m'.instr i).object = (m.instr i).object ∧
    m'.operands i = (m.operands i).map (P.subst m)
  literal : ∀ i ∈ m.instrs f, ∀ c, .literal c ∈ m.operands i →
    (m'.literal c).value = (m.literal c).value
  newPhi : ∀ b ∈ (m.func f).layout, ∀ p ∈ P.newPhis b, (m'.instr p).op = .phi
  nodup : ((m.func f).layout.flatMap (P.line m)).Nodup
  /-- Locals are allocated in the entry block, and nothing that is kept mentions them. -/
  alloca : ∀ a, P.promoted a = true → a ∈ m.body e ∧ (m.instr a).op = .alloca
  scalar : ∀ a, P.promoted a = true → ((m.instr a).object.getD .void).isScalar = true
  unmentioned : ∀ i ∈ m.instrs f, P.keeps m i = true → ∀ a, .instr a ∈ m.operands i →
    P.promoted a = false
  stored : ∀ i ∈ m.instrs f, ∀ a, P.storeOf? m i = some a → ∀ x, m.operand i 0 = .instr x →
    P.promoted x = false
  incoming : ∀ q, m.Reaches e q → ∀ s ∈ m.succs q, ∀ p ∈ P.newPhis s,
    ∃ v, m'.incomingFor? p q = some v ∧ Feeds m' (P.finish q (P.localOf p)) v
  start_entry : ∀ x, P.start e x = none
  start_phi : ∀ b, m.Reaches e b → ∀ p ∈ P.newPhis b, P.start b (P.localOf p) = some (.instr p)
  /-- Without a phi a local is worth the same at the end of every predecessor, by a value from
  further up. -/
  start_same : ∀ b, m.Reaches e b → ∀ x, (∀ p ∈ P.newPhis b, P.localOf p ≠ x) →
    (∀ q, m.Reaches e q → b ∈ m.succs q → P.start b x = P.finish q x) ∧
    ∀ j, P.start b x = some (.instr j) → ∃ c, c ≠ b ∧ m.Dominates e c b ∧ j ∈ P.line m c
  finish : ∀ b, m.Reaches e b → P.finish b = P.through m (P.start b) (m.body b)
  fed : ∀ b, m.Reaches e b → LoadsFed m m' P (P.start b) (m.body b)
  /-- What stands for a load was available before it. -/
  value_available : ∀ b, m.Reaches e b → ∀ pre l post, P.line m b = pre ++ l :: post →
    (P.loadOf? m l).isSome →
    ∀ j, P.value l = .instr j → Available m (P.line m) e b pre j

end CMinusF
