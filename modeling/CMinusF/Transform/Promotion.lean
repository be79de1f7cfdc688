import CMinusF.Failure
import CMinusF.Flow.Dominance
import CMinusF.Graph.Build

/-! Promotion of local variables: a local whose address is only loaded from and stored to becomes a
value, with phis where different stores meet, and its loads and stores disappear. -/
namespace CMinusF.Promotion

structure Stats where
  promoted : Nat
  phis : Nat
deriving DecidableEq, Repr, Inhabited

/-- Is the address read only as the address of a load or a store? -/
def promotable (m : Module) (a : InstrId) : Bool :=
  (m.instr a).op = .alloca && (m.instr a).object.any Ty.isScalar &&
    (m.instr a).uses.all fun u =>
      ((m.instr u).op = .load && m.operand u 0 = .instr a) ||
      ((m.instr u).op = .store && m.operand u 1 = .instr a && m.operand u 0 ≠ .instr a)

def candidates (m : Module) (f : FuncId) : List InstrId :=
  (m.func f).layout.flatMap fun b => (m.block b).instrs.filter (promotable m)

def objectOf (m : Module) (a : InstrId) : Ty := (m.instr a).object.getD .void

/-! Placing phis. -/

structure Placement where
  module : Module
  /-- The local that each phi stands for. -/
  localOf : Table (Option InstrId)
  count : Nat

def enqueue (bs : List BlockId) (b : BlockId) : List BlockId :=
  if bs.any (·.number = b.number) then bs else bs ++ [b]

/-- The blocks with a store to a local, in the order of its uses. -/
def storeBlocks (m : Module) (d : Dominance) (a : InstrId) : List BlockId :=
  (m.instr a).uses.foldl (fun bs u =>
    match (m.instr u).op, (m.instr u).parent with
    | .store, some b => if d.reachable b then enqueue bs b else bs
    | _, _ => bs) []

/-- The state of the search for the blocks that need a phi: those with one, and those whose frontier
has been or is to be looked at. -/
structure Spread where
  joins : List BlockId
  queue : List BlockId

/-- A block of a frontier needs a phi and spreads further. -/
def Spread.join (s : Spread) (b : BlockId) : Spread :=
  if s.joins.any (·.number = b.number) then s else ⟨s.joins ++ [b],enqueue s.queue b⟩

/-- Looks at the frontiers of the queue from position `i` on. -/
def Spread.run (d : Dominance) : Nat → Nat → Spread → Spread
  | 0, _, s => s
  | n+1, i, s =>
    match s.queue[i]? with
    | none => s
    | some b => run d n (i + 1) ((d.frontier b).foldl join s)

def joinBlocks (m : Module) (d : Dominance) (a : InstrId) : List BlockId :=
  let start := storeBlocks m d a
  (Spread.run d (start.length + d.byNumber.size + 1) 0 ⟨[],start⟩).joins

def placePhi (a : InstrId) (p : Placement) (b : BlockId) : Placement :=
  let (m,phi) := p.module.newPhi b (objectOf p.module a)
  ⟨m,p.localOf.set phi (some a),p.count + 1⟩

def placePhis (d : Dominance) (p : Placement) (a : InstrId) : Placement :=
  (joinBlocks p.module d a).foldl (placePhi a) p

/-! Renaming. -/

/-- What is known while renaming: which locals are promoted and which phi stands for which. -/
structure Names where
  tracked : Table Bool
  localOf : Table (Option InstrId)

/-- The local that an address denotes, if it is promoted. -/
def Names.target? (s : Names) : Operand → Option InstrId
  | .instr a => if s.tracked.get a then some a else none
  | _ => none

/-- The values of the locals at a point of a path; none before the first store. -/
abbrev Values := Table (Option Operand)

structure Renaming where
  module : Module
  /-- Loads and stores that have become useless, in the order they were met. -/
  dead : List InstrId

/-- The value of a local; what was never stored is a fresh undefined value. -/
def current (m : Module) (values : Values) (a : InstrId) : Module × Operand :=
  match values.get a with
  | some v => (m,v)
  | none => m.addLiteral (.undef (objectOf m a))

def renameInstr (names : Names) (s : Renaming × Values) (i : InstrId) : Renaming × Values :=
  let (r,values) := s
  match (r.module.instr i).op with
  | .phi =>
    match names.localOf.get i with
    | some a => (r,values.set a (some (.instr i)))
    | none => s
  | .store =>
    match names.target? (r.module.operand i 1) with
    | some a => (⟨r.module,r.dead ++ [i]⟩,values.set a (some (r.module.operand i 0)))
    | none => s
  | .load =>
    match names.target? (r.module.operand i 0) with
    | some a =>
      let (m,v) := current r.module values a
      (⟨m.replaceUses (.instr i) v,r.dead ++ [i]⟩,values)
    | none => s
  | _ => s

def feedPhi (names : Names) (values : Values) (b : BlockId) (m : Module) (phi : InstrId) : Module :=
  match names.localOf.get phi with
  | some a =>
    let (m,v) := current m values a
    m.addIncoming phi v b
  | none => m

def feedSuccessors (names : Names) (values : Values) (b : BlockId) (m : Module) : Module :=
  (m.succs b).foldl (fun m s => (m.phis s).foldl (feedPhi names values b) m) m

/-- Renames a block and those below it in the dominator tree, `values` holding before it. -/
def renameBlock (names : Names) (d : Dominance) : Nat → Values → Renaming → BlockId → Renaming
  | 0, _, r, _ => r
  | n+1, values, r, b =>
    let (r,values) := (r.module.block b).instrs.foldl (renameInstr names) (r,values)
    let r := ⟨feedSuccessors names values b r.module,r.dead⟩
    (d.children.get b).foldl (renameBlock names d n values) r

/-- In a block that is never reached, a load reads an undefined value. -/
def renameUnreached (names : Names) (r : Renaming) (i : InstrId) : Renaming :=
  match (r.module.instr i).op with
  | .store => if (names.target? (r.module.operand i 1)).isSome then ⟨r.module,r.dead ++ [i]⟩ else r
  | .load =>
    match names.target? (r.module.operand i 0) with
    | some a =>
      let (m,v) := r.module.addLiteral (.undef (objectOf r.module a))
      ⟨m.replaceUses (.instr i) v,r.dead ++ [i]⟩
    | none => r
  | _ => r

/-- Erases the promoted locals; one that is still used is an error. -/
def eraseLocals (f : FuncId) : Module → List InstrId → Module × Option Failure
  | m, [] => (m,none)
  | m, a::rest =>
    match (m.instr a).uses.length with
    | 0 => eraseLocals f (m.erase a) rest
    | n => (m,some (.locate m f (some a) (.malformed (.stillUsed n))))

structure Result where
  module : Module
  stats : Stats
  failure : Option Failure

def run (m : Module) (f : FuncId) (d : Dominance) : Result :=
  let locals := candidates m f
  if (m.func f).isDeclaration || locals.isEmpty then ⟨m,⟨0,0⟩,none⟩
  else
    let placed := locals.foldl (placePhis d) ⟨m,.empty,0⟩
    let tracked := locals.foldl (fun t a => t.set a true) (.empty : Table Bool)
    let names : Names := ⟨tracked,placed.localOf⟩
    let entry := (m.func f).entryBlock?.getD default
    let r := renameBlock names d (m.blockCount + 1) .empty ⟨placed.module,[]⟩ entry
    let unreached := (m.func f).layout.filter fun b => !d.reachable b
    let r := unreached.foldl (fun r b => (r.module.block b).instrs.foldl
      (renameUnreached names) r) r
    let m := r.dead.foldl Module.erase r.module
    match eraseLocals f m locals with
    | (m,none) => ⟨m,⟨locals.length,placed.count⟩,none⟩
    | (m,some e) => ⟨m,⟨0,placed.count⟩,some e⟩

end CMinusF.Promotion
