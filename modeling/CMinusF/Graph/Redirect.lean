import CMinusF.Graph.Build
import CMinusF.Graph.Defect

/-! Moving edges: sending a branch elsewhere, and putting a block on an edge. -/
namespace CMinusF.Module

/-- Sends the branch that ends `pred` to `target` wherever it went to `source`. -/
def redirect (m : Module) (pred source target : BlockId) : Except Defect Module :=
  match (m.terminator? pred).filter fun t => (m.instr t).op = .br with
  | none => .error (.noBranch (m.block pred).name)
  | some term =>
    if .block source ∈ m.operands term then
      let m := m.replaceIn term (.block source) (.block target)
      .ok ((m.removeEdge pred source).addEdge pred target)
    else .error (.notBranchingTo (m.block pred).name (m.block source).name)

/-- An edge between a block with several successors and a block with several predecessors. -/
def isCritical (m : Module) (pred succ : BlockId) : Bool :=
  1 < (m.block pred).succs.length && 1 < (m.block succ).preds.length

/-- Makes the phi take from `new` what it took from `old`. -/
def renameIncoming (m : Module) (old new : BlockId) (phi : InstrId) : Module :=
  (List.range (m.operands phi).length).foldl
    (fun m n => if n % 2 = 1 ∧ m.operand phi n = .block old
      then m.setOperand phi n (.block new) else m) m

/-- Puts a fresh block on an edge; the block stays in the layout even if the edge cannot be moved.
-/
def splitEdge (m : Module) (f : FuncId) (pred succ : BlockId) : Module × Option Defect :=
  let hint := (m.block pred).name ++ "_to_" ++ (m.block succ).name ++ "_"
  let (m,b) := m.addBlockBefore f hint succ
  match m.redirect pred succ b with
  | .error d => (m,some d)
  | .ok m =>
    let (m,_) := m.br b succ
    ((m.phis succ).foldl (fun m phi => m.renameIncoming pred b phi) m,none)

structure SplitResult where
  module : Module
  count : Nat
  defect : Option Defect

/-- Goes on with an edge unless an earlier one could not be split. -/
def splitIfCritical (f : FuncId) (succ : BlockId) (r : SplitResult) (pred : BlockId) :
    SplitResult :=
  if r.defect.isSome || !r.module.isCritical pred succ then r
  else
    match r.module.splitEdge f pred succ with
    | (m,none) => ⟨m,r.count + 1,none⟩
    | (m,some d) => ⟨m,r.count,some d⟩

def splitInto (f : FuncId) (r : SplitResult) (succ : BlockId) : SplitResult :=
  if r.defect.isSome || (r.module.phis succ).isEmpty then r
  else (r.module.block succ).preds.foldl (splitIfCritical f succ) r

/-- Puts a block on every critical edge into a block with phis, so that what feeds a phi can stand
at the end of its predecessor without being seen on that block's other edges. -/
def splitCriticalEdges (m : Module) (f : FuncId) : SplitResult :=
  (m.func f).layout.foldl (splitInto f) ⟨m,0,none⟩

end CMinusF.Module
