import CMinusF.Flow.Dominance

/-! Natural loops and how they nest. -/
namespace CMinusF

/-- A header and every block that reaches one of the header's back edges without passing through it.
Loops of a forest refer to each other by position. -/
structure Loop where
  header : BlockId
  blocks : List BlockId
  numbers : List Nat
  parent : Option Nat
  children : List Nat
  preheader : Option BlockId
deriving Repr, Inhabited

namespace Loop

def contains (l : Loop) (b : BlockId) : Bool := b.number ∈ l.numbers

def addBlock (l : Loop) (b : BlockId) : Loop :=
  if b.number ∈ l.numbers then l
  else { l with numbers := b.number :: l.numbers, blocks := l.blocks ++ [b] }

def latches (l : Loop) (m : Module) : List BlockId := (m.preds l.header).filter l.contains

end Loop

/-- All loops of a function in the order of their headers, and the positions of the outermost. -/
structure Forest where
  loops : List Loop
  roots : List Nat
deriving Repr, Inhabited

namespace Forest

def loop (s : Forest) (n : Nat) : Loop := s.loops.getD n default

def modifyLoop (s : Forest) (n : Nat) (h : Loop → Loop) : Forest :=
  { s with loops := s.loops.modify n h }

/-- Gathers the numbers of the blocks from which `work` can be reached, `numbers` standing in the
way. -/
def gather (m : Module) (d : Dominance) : Nat → List BlockId → List Nat → List Nat
  | 0, _, numbers => numbers
  | _, [], numbers => numbers
  | n+1, b::work, numbers =>
    if b.number ∈ numbers then gather m d n work numbers
    else
      let numbers := b.number :: numbers
      let next := (m.preds b).filter fun p => d.reachable p && p.number ∉ numbers
      gather m d n (next.reverse ++ work) numbers

def edgeBound (m : Module) : Nat :=
  m.funcTable.rows.foldl (fun n f => f.blocks.rows.foldl (fun n b => n + b.preds.length + 1) n) 1

/-- The loop with the given header, if a block it dominates branches back to it. -/
def loopAt? (m : Module) (d : Dominance) (layout : List BlockId) (header : BlockId) : Option Loop :=
  if !d.reachable header then none
  else
    let latches := (m.preds header).filter fun p => d.reachable p && d.dominates header p
    if latches.isEmpty then none
    else
      let numbers := gather m d (edgeBound m + latches.length) latches.reverse [header.number]
      some ⟨header,layout.filter (·.number ∈ numbers),numbers,none,[],none⟩

/-- Positions in the order of size, equal sizes in their own order. -/
def bySize (loops : List Loop) : List Nat :=
  (loops.zipIdx.mergeSort fun a b => a.1.blocks.length ≤ b.1.blocks.length).map (·.2)

/-- Each loop with the first of the larger ones that contains its header. -/
def parents (loops : List Loop) : List Nat → List (Nat × Option Nat)
  | [] => []
  | n::larger =>
    let header := (loops.getD n default).header
    (n,larger.find? fun k => (loops.getD k default).contains header) :: parents loops larger

/-- Orders loops into a forest: the parent of a loop is the smallest other one with its header. -/
def ofLoops (loops : List Loop) : Forest :=
  let parent := parents loops (bySize loops)
  let parentOf (n : Nat) : Option Nat := (parent.find? (·.1 = n)).bind (·.2)
  let positions := List.range loops.length
  let nested := loops.zipIdx.map fun (l,n) =>
    { l with parent := parentOf n, children := positions.filter fun k => parentOf k = some n }
  ⟨nested,positions.filter fun n => (parentOf n).isNone⟩

/-- The loops below a position, each before those around it. -/
def postorderFrom (s : Forest) : Nat → Nat → List Nat
  | 0, _ => []
  | n+1, k => (s.loop k).children.flatMap (postorderFrom s n) ++ [k]

/-- Every loop after the loops inside it. -/
def postorder (s : Forest) : List Nat := s.roots.flatMap (s.postorderFrom (s.loops.length + 1))

/-- The loops around a position, the innermost first. -/
def around (s : Forest) : Nat → Nat → List Nat
  | 0, _ => []
  | n+1, k =>
    match (s.loop k).parent with
    | none => []
    | some p => p :: around s n p

def ancestors (s : Forest) (k : Nat) : List Nat := s.around s.loops.length k

/-- An outermost loop has depth one. -/
def depth (s : Forest) (k : Nat) : Nat := (s.ancestors k).length + 1

end Forest

/-- The loops of a function as it is, by the dominators given. -/
def Module.findLoops (m : Module) (f : FuncId) (d : Dominance) : Forest :=
  let layout := (m.func f).layout
  Forest.ofLoops (layout.filterMap (Forest.loopAt? m d layout))

end CMinusF
