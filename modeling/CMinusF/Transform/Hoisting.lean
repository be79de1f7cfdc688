import CMinusF.Failure
import CMinusF.Flow.Loops
import CMinusF.Flow.Purity
import CMinusF.Graph.Redirect

/-! Hoisting: an instruction that computes the same on every turn of a loop moves in front of it,
innermost loops first. -/
namespace CMinusF.Hoisting

structure Stats where
  hoisted : Nat
  preheaders : Nat
deriving DecidableEq, Repr, Inhabited

structure Effects where
  stored : List Operand
  unknownStore : Bool
  /-- Something other than a local object is stored to. -/
  nonLocal : Bool
  impureCall : Bool

def isNamedObject (m : Module) : Operand → Bool
  | .global _ => true
  | v => m.isLocalObject v

def isPureCall (m : Module) (p : Purity) (i : InstrId) : Bool := (m.callee? i).any p.isPure

def Effects.ofInstrs (m : Module) (p : Purity) (body : List InstrId) : Effects :=
  let roots := (body.filter fun i => (m.instr i).op = .store).map fun i =>
    m.memoryRoot (m.operand i 1)
  { stored := roots
    unknownStore := roots.any fun v => !isNamedObject m v
    nonLocal := roots.any fun v => !m.isLocalObject v
    impureCall := body.any fun i => (m.instr i).op = .call && !isPureCall m p i }

/-- Does a load from an object see the same memory on every turn? A pointer of unknown origin may
point at a global, never at a local of this function. -/
def Effects.keeps (e : Effects) (m : Module) (root : Operand) : Bool :=
  !e.impureCall &&
    if isNamedObject m root then root ∉ e.stored && !e.unknownStore else !e.nonLocal

/-- Is a value the same on every turn, given the body of the loop and what of it is invariant? -/
def settled (body invariant : List InstrId) : Operand → Bool
  | .instr i => i ∉ body || i ∈ invariant
  | _ => true

def canHoist (m : Module) (p : Purity) (e : Effects) (body invariant : List InstrId)
    (i : InstrId) : Bool :=
  match (m.instr i).op with
  | .store | .ret | .br | .phi => false
  | .call => isPureCall m p i && (m.callArgs i).all (settled body invariant)
  | .load => settled body invariant (m.operand i 0) && e.keeps m (m.memoryRoot (m.operand i 0))
  | _ => m.speculatable i && (m.operands i).all (settled body invariant)

/-- One pass over the body; what is found is added at the end. -/
def sweep (m : Module) (p : Purity) (e : Effects) (body : List InstrId) (invariant : List InstrId) :
    List InstrId :=
  body.foldl (fun found i =>
    if i ∉ found && canHoist m p e body found i then found ++ [i] else found) invariant

/-- Passes over the body until nothing new is found, at most `n` of them. -/
def invariantsFrom (m : Module) (p : Purity) (e : Effects) (body : List InstrId) :
    Nat → List InstrId → List InstrId
  | 0, found => found
  | n+1, found =>
    let more := sweep m p e body found
    if more.length = found.length then found else invariantsFrom m p e body n more

/-- The invariant instructions of a loop, each after those it depends on. -/
def invariants (m : Module) (p : Purity) (l : Loop) : List InstrId :=
  let body := l.blocks.flatMap fun b => (m.block b).instrs
  invariantsFrom m p (Effects.ofInstrs m p body) body (body.length + 1) []

/-! Preheaders. -/

/-- Sends the edges from the given blocks to a header elsewhere; stops at one that cannot be sent.
-/
def redirectAll (header pre : BlockId) : Module → List BlockId → Module × Option (BlockId × Defect)
  | m, [] => (m,none)
  | m, b::bs =>
    match m.redirect b header pre with
    | .ok m => redirectAll header pre m bs
    | .error d => (m,some (b,d))

/-- Moves what a phi takes from outside the loop into a phi of the preheader. -/
def splitPhi (l : Loop) (pre : BlockId) (m : Module) (phi : InstrId) : Module :=
  let outside := (m.incoming phi).filterMap fun (v,b) =>
    match b with
    | .block b => if l.contains b then none else some (v,b)
    | _ => none
  if outside.isEmpty then m
  else
    let (m,merged) := m.newPhi pre (m.instr phi).type
    let m := outside.foldl (fun m (v,b) => (m.addIncoming merged v b).removeIncoming phi b) m
    m.addIncoming phi (.instr merged) pre

structure State where
  module : Module
  forest : Forest
  stats : Stats
  failure : Option Failure

/-- Puts a block in front of a loop that takes over every edge into it from outside. -/
def makePreheader (f : FuncId) (s : State) (k : Nat) : State × Option BlockId :=
  let l := s.forest.loop k
  let outside := (s.module.preds l.header).filter fun b => !l.contains b
  let (m,pre) := s.module.addBlockBefore f "preheader" l.header
  match redirectAll l.header pre m outside with
  | (m,some (b,d)) =>
    ({ s with module := m, failure := some (.locate m f (m.terminator? b) (.malformed d)) },none)
  | (m,none) =>
    let (m,_) := m.br pre l.header
    let m := (m.phis l.header).foldl (splitPhi l pre) m
    let forest := s.forest.modifyLoop k fun l => { l with preheader := some pre }
    let forest := (forest.ancestors k).foldl (fun t n => t.modifyLoop n (·.addBlock pre)) forest
    (⟨m,forest,{ s.stats with preheaders := s.stats.preheaders + 1 },none⟩,some pre)

def preheader (f : FuncId) (s : State) (k : Nat) : State × Option BlockId :=
  match (s.forest.loop k).preheader with
  | some pre => (s,some pre)
  | none => makePreheader f s k

def runOnLoop (p : Purity) (f : FuncId) (s : State) (k : Nat) : State :=
  if s.failure.isSome then s
  else
    let found := invariants s.module p (s.forest.loop k)
    if found.isEmpty then s
    else
      match preheader f s k with
      | (s,none) => s
      | (s,some pre) =>
        match s.module.terminator? pre with
        | none => s
        | some term =>
          { s with
            module := found.foldl (fun m i => m.moveBefore i term) s.module
            stats := { s.stats with hoisted := s.stats.hoisted + found.length } }

def run (m : Module) (f : FuncId) (forest : Forest) (p : Purity) : State :=
  forest.postorder.foldl (runOnLoop p f) ⟨m,forest,⟨0,0⟩,none⟩

end CMinusF.Hoisting
