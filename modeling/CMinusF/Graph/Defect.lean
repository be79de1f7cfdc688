import CMinusF.Graph.Text

/-! What can be wrong with the shape of a graph, and the check that every transformation relies on.
-/
namespace CMinusF

inductive Defect where
  | blockElsewhere (block : String)
  | noTerminator (block : String)
  | wrongParent (block : String)
  | earlyTerminator (block : String)
  | latePhi (block : String)
  | voidUsed
  | oddPhi
  | phiNotBlock
  | duplicateIncoming (block : String)
  | incomingNotPred (incoming block : String)
  | emptySlot (op block : String)
  | operandElsewhere (ref : String)
  | operandVoid (ref : String)
  | argumentElsewhere (ref : String)
  | missingSuccessor (source target : String)
  | missingPredecessor (source target : String)
  | successorNotTarget (succ block : String)
  | predecessorUnaware (pred block : String)
  | noBranch (block : String)
  | notBranchingTo (block target : String)
  | stillUsed (count : Nat)
  | noSlot (ref : String)
deriving DecidableEq, Repr

def Defect.message (d : Defect) : String :=
  "malformed IR: " ++ match d with
  | .blockElsewhere b => s!"block {b} belongs to another function"
  | .noTerminator b => s!"block {b} has no terminator"
  | .wrongParent b => s!"parent link does not point at {b}"
  | .earlyTerminator b => s!"terminator in the middle of {b}"
  | .latePhi b => s!"phi after non-phi in {b}"
  | .voidUsed => "void instruction has uses"
  | .oddPhi => "odd phi operand count"
  | .phiNotBlock => "phi incoming block is not a block"
  | .duplicateIncoming b => s!"duplicate incoming block {b}"
  | .incomingNotPred p b => s!"incoming block {p} is not a predecessor of {b}"
  | .emptySlot op b => s!"{op} in {b} has a nil operand"
  | .operandElsewhere r => s!"operand {r} is not an instruction of this function"
  | .operandVoid r => s!"operand {r} has no value"
  | .argumentElsewhere r => s!"argument {r} belongs to another function"
  | .missingSuccessor a b => s!"edge {a} -> {b} missing from successor list"
  | .missingPredecessor a b => s!"edge {a} -> {b} missing from predecessor list"
  | .successorNotTarget s b => s!"successor {s} of {b} is not a branch target"
  | .predecessorUnaware p b => s!"predecessor {p} of {b} does not list it as successor"
  | .noBranch b => s!"{b} has no branch to redirect"
  | .notBranchingTo b t => s!"{b} does not branch to {t}"
  | .stillUsed n => s!"promoted local still has {n} uses"
  | .noSlot r => s!"{r} has no stack slot"

namespace Module

/-- A defect and the instruction at fault, if it is one instruction's. -/
abbrev Finding := Option InstrId × Defect

/-- The phi's operands from a pair on, the blocks of the pairs before it being `seen`. -/
def pairsDefect? (m : Module) (b : BlockId) (seen : List BlockId) : List Operand → Option Defect
  | [] => none
  | [_] => some .oddPhi
  | _::v::rest =>
    match v with
    | .block p =>
      if p ∈ seen then some (.duplicateIncoming (m.block p).name)
      else if p ∉ (m.block b).preds then some (.incomingNotPred (m.block p).name (m.block b).name)
      else m.pairsDefect? b (p::seen) rest
    | _ => some .phiNotBlock

def phiDefect? (m : Module) (b : BlockId) (i : InstrId) : Option Defect :=
  if (m.operands i).length % 2 ≠ 0 then some .oddPhi else m.pairsDefect? b [] (m.operands i)

def operandDefect? (m : Module) (f : FuncId) (b : BlockId) (i : InstrId) : Operand → Option Finding
  | .hole => some (none,.emptySlot (m.instr i).op.name (m.block b).name)
  | .instr j =>
    if (m.instr j).parent.all (·.func ≠ f)
      then some (some i,.operandElsewhere (m.refText (.instr j)))
    else if (m.instr j).type.isVoid then some (some i,.operandVoid (m.refText (.instr j)))
    else none
  | .arg g n => if g ≠ f then some (some i,.argumentElsewhere (m.refText (.arg g n))) else none
  | .block c => if c.func ≠ f then some (some i,.blockElsewhere (m.block c).name) else none
  | _ => none

/-- `inPhis` tells that only phis stand before the instruction, `last` that none stands after it. -/
def instrDefect? (m : Module) (f : FuncId) (b : BlockId) (inPhis last : Bool) (i : InstrId) :
    Option Finding :=
  let x := m.instr i
  if x.parent ≠ some b then some (some i,.wrongParent (m.block b).name)
  else if x.op.isTerminator && !last then some (some i,.earlyTerminator (m.block b).name)
  else if x.op = .phi && !inPhis then some (some i,.latePhi (m.block b).name)
  else
    (if x.op = .phi then (m.phiDefect? b i).map fun d => (some i,d) else none) <|>
    (if x.type.isVoid && !x.uses.isEmpty then some (some i,.voidUsed) else none) <|>
    x.operands.findSome? (m.operandDefect? f b i)

def instrsDefect? (m : Module) (f : FuncId) (b : BlockId) : Bool → List InstrId → Option Finding
  | _, [] => none
  | inPhis, i::rest =>
    m.instrDefect? f b inPhis rest.isEmpty i <|>
      m.instrsDefect? f b (inPhis && (m.instr i).op = .phi) rest

/-- The successors must be exactly the targets of the branch, and neighbours must know each other.
-/
def edgeDefect? (m : Module) (b : BlockId) (term : InstrId) : Option Finding :=
  let x := m.block b
  let targets := m.targets term
  (targets.findSome? fun t =>
    if t ∉ x.succs then some (some term,.missingSuccessor x.name (m.block t).name)
    else if b ∉ (m.block t).preds then some (some term,.missingPredecessor x.name (m.block t).name)
    else none) <|>
  (x.succs.findSome? fun s =>
    if s ∉ targets then some (some term,.successorNotTarget (m.block s).name x.name) else none) <|>
  (x.preds.findSome? fun p =>
    if b ∉ (m.block p).succs then some (none,.predecessorUnaware (m.block p).name x.name) else none)

def blockDefect? (m : Module) (f : FuncId) (b : BlockId) : Option Finding :=
  if b.func ≠ f then some (none,.blockElsewhere (m.block b).name)
  else
    match m.terminator? b with
    | none => some (none,.noTerminator (m.block b).name)
    | some term => m.instrsDefect? f b true (m.block b).instrs <|> m.edgeDefect? b term

def funcDefect? (m : Module) (f : FuncId) : Option Finding :=
  (m.func f).layout.findSome? (m.blockDefect? f)

end Module
end CMinusF
