import CMinusF.Graph.Basic

/-! Operations on the graph. Each keeps the use lists in step with the operands; branches are made
and retargeted together with the edge lists. -/
namespace CMinusF.Module

/-! Operands and their uses. -/

def addUse (m : Module) (v : Operand) (user : InstrId) : Module := m.modifyUses v (· ++ [user])

/-- Takes away one use, the first listed. -/
def removeUse (m : Module) (v : Operand) (user : InstrId) : Module := m.modifyUses v (·.erase user)

def operands (m : Module) (i : InstrId) : List Operand := (m.instr i).operands

def operand (m : Module) (i : InstrId) (n : Nat) : Operand := (m.operands i).getD n .hole

def setOperand (m : Module) (i : InstrId) (n : Nat) (v : Operand) : Module :=
  let m := m.removeUse (m.operand i n) i
  let m := m.modifyInstr i fun x => { x with operands := x.operands.set n v }
  m.addUse v i

def replaceIn (m : Module) (i : InstrId) (old new : Operand) : Module :=
  (List.range (m.operands i).length).foldl
    (fun m n => if m.operand i n = old then m.setOperand i n new else m) m

def replaceUses (m : Module) (old new : Operand) : Module :=
  (m.uses old).foldl (fun m user => m.replaceIn user old new) m

/-! Instructions in blocks. -/

def terminator? (m : Module) (b : BlockId) : Option InstrId :=
  (m.block b).instrs.getLast?.filter fun i => (m.instr i).op.isTerminator

def isTerminated (m : Module) (b : BlockId) : Bool := (m.terminator? b).isSome

def phis (m : Module) (b : BlockId) : List InstrId :=
  (m.block b).instrs.takeWhile fun i => (m.instr i).op = .phi

/-- Puts an instruction into a block, `n` others standing before it. -/
def insertAt (m : Module) (b : BlockId) (n : Nat) (i : InstrId) : Module :=
  let m := m.modifyInstr i fun x => { x with parent := some b }
  m.modifyBlock b fun x => { x with instrs := x.instrs.take n ++ i :: x.instrs.drop n }

def append (m : Module) (b : BlockId) (i : InstrId) : Module :=
  let m := m.modifyInstr i fun x => { x with parent := some b }
  m.modifyBlock b fun x => { x with instrs := x.instrs ++ [i] }

/-- Takes an instruction out of a block, if it is there; its operands stay. -/
def remove (m : Module) (b : BlockId) (i : InstrId) : Module :=
  if i ∈ (m.block b).instrs then
    let m := m.modifyBlock b fun x => { x with instrs := x.instrs.erase i }
    m.modifyInstr i fun x => { x with parent := none }
  else m

/-- Moves an instruction to directly before `place`, possibly into another block. -/
def moveBefore (m : Module) (i place : InstrId) : Module :=
  let m : Module := match (m.instr i).parent with
    | some b => m.remove b i
    | none => m
  match (m.instr place).parent with
  | some b => m.insertAt b ((m.block b).instrs.idxOf place) i
  | none => m

/-! Edges. -/

def addTo (bs : List BlockId) (b : BlockId) : List BlockId := if b ∈ bs then bs else bs ++ [b]

/-- Edge lists hold a block once, however many arms of a branch lead to it. -/
def addEdge (m : Module) (pred succ : BlockId) : Module :=
  let m := m.modifyBlock pred fun x => { x with succs := addTo x.succs succ }
  m.modifyBlock succ fun x => { x with preds := addTo x.preds pred }

def removeEdge (m : Module) (pred succ : BlockId) : Module :=
  let m := m.modifyBlock pred fun x => { x with succs := x.succs.filter (· ≠ succ) }
  m.modifyBlock succ fun x => { x with preds := x.preds.filter (· ≠ pred) }

def blockOf? : Operand → Option BlockId
  | .block b => some b
  | _ => none

def targets (m : Module) (i : InstrId) : List BlockId :=
  match (m.instr i).op with
  | .br => (m.operands i).filterMap blockOf?
  | _ => []

def isCondBr (m : Module) (i : InstrId) : Bool :=
  (m.instr i).op = .br && (m.operands i).length == 3

/-- Takes an instruction out of its block and gives up its operands and edges. -/
def erase (m : Module) (i : InstrId) : Module :=
  let m : Module := match (m.instr i).parent with
    | some b => (m.targets i).foldl (fun m t => m.removeEdge b t) m
    | none => m
  let m : Module := (m.operands i).foldl (fun m v => m.removeUse v i) m
  let m := m.modifyInstr i fun x => { x with operands := [] }
  match (m.instr i).parent with
  | some b => m.remove b i
  | none => m

/-! Calls and phis. -/

def callee? (m : Module) (i : InstrId) : Option FuncId :=
  match (m.instr i).op, m.operands i with
  | .call, .func f :: _ => some f
  | _, _ => none

def callArgs (m : Module) (i : InstrId) : List Operand :=
  match (m.instr i).op with
  | .call => (m.operands i).drop 1
  | _ => []

def pairs : List Operand → List (Operand × Operand)
  | v::b::rest => (v,b) :: pairs rest
  | _ => []

/-- The values that flow into a phi, each with the block it flows from. -/
def incoming (m : Module) (phi : InstrId) : List (Operand × Operand) := pairs (m.operands phi)

def incomingFor? (m : Module) (phi : InstrId) (pred : BlockId) : Option Operand :=
  ((m.incoming phi).find? fun p => p.2 = .block pred).map (·.1)

def addIncoming (m : Module) (phi : InstrId) (v : Operand) (pred : BlockId) : Module :=
  let m := m.modifyInstr phi fun x => { x with operands := x.operands ++ [v,.block pred] }
  (m.addUse v phi).addUse (.block pred) phi

def dropPair (pred : BlockId) : List Operand → List Operand
  | v::b::rest => if b = .block pred then rest else v :: b :: dropPair pred rest
  | rest => rest

def removeIncoming (m : Module) (phi : InstrId) (pred : BlockId) : Module :=
  match m.incomingFor? phi pred with
  | none => m
  | some v =>
    let m := (m.removeUse v phi).removeUse (.block pred) phi
    m.modifyInstr phi fun x => { x with operands := dropPair pred x.operands }

end CMinusF.Module
