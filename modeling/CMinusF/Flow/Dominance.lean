import CMinusF.Graph.BlockMap

/-! Dominators of the blocks of a function, by refining a tree over a postorder until it is stable,
and the dominance frontiers. The result is a snapshot: it knows the blocks there were. -/
namespace CMinusF

namespace Module

def blockCount (m : Module) : Nat := m.funcTable.rows.foldl (fun n f => n + f.blocks.size) 0

def succs (m : Module) (b : BlockId) : List BlockId := (m.block b).succs
def preds (m : Module) (b : BlockId) : List BlockId := (m.block b).preds

end Module

/-- A depth-first search: the blocks met, and those left again, the last one first. -/
structure Search where
  seen : BlockMap Bool
  order : List BlockId

/-- Visits a block and all that can be reached from it through blocks not met before. -/
def Search.visit (m : Module) : Nat → Search → BlockId → Search
  | 0, s, _ => s
  | n+1, s, b =>
    if s.seen.get b then s
    else
      let s := (m.succs b).foldl (visit m n) ⟨s.seen.set b true,s.order⟩
      ⟨s.seen,b :: s.order⟩

/-- The blocks that can be reached from `entry`, in reverse postorder. -/
def Module.reversePostorder (m : Module) (entry : BlockId) : List BlockId :=
  (Search.visit m (m.blockCount + 1) ⟨.empty,[]⟩ entry).order

structure Dominance where
  func : FuncId
  /-- The immediate dominator of every block that can be reached; the entry is its own. -/
  idom : BlockMap (Option BlockId)
  children : BlockMap (List BlockId)
  /-- The numbers of the blocks in the frontier, ascending. -/
  frontierNumbers : BlockMap (List Nat)
  byNumber : Table (Option BlockId)
  /-- When a walk through the tree enters and leaves a block. -/
  enter : BlockMap Nat
  leave : BlockMap Nat
deriving Inhabited

namespace Dominance

/-- Climbs from the lower of two blocks until they meet. -/
def meet (number : BlockMap Nat) (idom : BlockMap (Option BlockId)) : Nat → BlockId →
    BlockId → BlockId
  | 0, b, _ => b
  | n+1, b, c =>
    if b = c then b
    else if number.get b < number.get c then meet number idom n ((idom.get b).getD b) c
    else meet number idom n b ((idom.get c).getD c)

/-- The nearest block above all the predecessors that have a dominator so far. -/
def candidate (m : Module) (number : BlockMap Nat) (climb : Nat) (idom : BlockMap (Option BlockId))
    (b : BlockId) : Option BlockId :=
  (m.preds b).foldl (fun acc p =>
    if (idom.get p).isNone then acc
    else
      match acc with
      | none => some p
      | some c => some (meet number idom climb p c)) none

def refine (m : Module) (number : BlockMap Nat) (climb : Nat) :
    List BlockId → BlockMap (Option BlockId) → BlockMap (Option BlockId) × Bool
  | [], idom => (idom,false)
  | b::bs, idom =>
    let d := candidate m number climb idom b
    if idom.get b = d then refine m number climb bs idom
    else ((refine m number climb bs (idom.set b d)).1,true)

/-- Rounds until nothing changes, at most `n` of them. -/
def settle (m : Module) (number : BlockMap Nat) (climb : Nat) (bs : List BlockId) :
    Nat → BlockMap (Option BlockId) → BlockMap (Option BlockId)
  | 0, idom => idom
  | n+1, idom =>
    match refine m number climb bs idom with
    | (idom,true) => settle m number climb bs n idom
    | (idom,false) => idom

/-- Positions counted from the end of a list: the last block has number zero. -/
def postorderNumbers (order : List BlockId) : BlockMap Nat :=
  order.reverse.zipIdx.foldl (fun t (b,i) => t.set b i) .empty

/-- The immediate dominators of the blocks in a reverse postorder, which starts with the entry. -/
def immediate (m : Module) (entry : BlockId) (order : List BlockId) : BlockMap (Option BlockId) :=
  let n := order.length
  settle m (postorderNumbers order) (2 * n) order.tail (n * n + 2)
    (BlockMap.empty.set entry (some entry))

structure Walk where
  clock : Nat
  enter : BlockMap Nat
  leave : BlockMap Nat

/-- Numbers a subtree in the order of a walk through it. -/
def walk (children : BlockMap (List BlockId)) : Nat → Walk → BlockId → Walk
  | 0, w, _ => w
  | n+1, w, b =>
    let w := ⟨w.clock + 1,w.enter.set b w.clock,w.leave⟩
    let w := (children.get b).foldl (walk children n) w
    ⟨w.clock + 1,w.enter,w.leave.set b w.clock⟩

def insertNumber (n : Nat) : List Nat → List Nat
  | [] => [n]
  | k::ks => if n < k then n :: k :: ks else if n = k then k :: ks else k :: insertNumber n ks

/-- Enters a block into the frontier of `runner` and of the blocks above it, up to `stop`. -/
def climbFrontier (parent : BlockId → Option BlockId) (stop : Option BlockId) (number : Nat) :
    Nat → Option BlockId → BlockMap (List Nat) → BlockMap (List Nat)
  | 0, _, t => t
  | _, none, t => t
  | n+1, some runner, t =>
    if some runner = stop then t
    else climbFrontier parent stop number n (parent runner) (t.modify runner (insertNumber number))

/-- The parent in the tree as it is asked for: the function's present entry has none. -/
def parentIn (entry : Option BlockId) (idom : BlockMap (Option BlockId)) (b : BlockId) :
    Option BlockId :=
  if some b = entry then none else idom.get b

def frontiers (m : Module) (entry : BlockId) (layout : List BlockId) (climb : Nat)
    (idom : BlockMap (Option BlockId)) : BlockMap (List Nat) :=
  let parent := parentIn (some entry) idom
  layout.foldl (fun t b =>
    let preds := (m.preds b).filter fun p => (idom.get p).isSome
    if (idom.get b).isNone || preds.length < 2 then t
    else preds.foldl (fun t p => climbFrontier parent (parent b) b.number climb
      (some p) t) t) .empty

end Dominance

open Dominance in
def Module.dominators (m : Module) (f : FuncId) : Dominance :=
  let layout := (m.func f).layout
  let byNumber := layout.foldl (fun t b => t.set b.number (some b))
    (.empty : Table (Option BlockId))
  match layout with
  | [] => ⟨f,.empty,.empty,.empty,byNumber,.empty,.empty⟩
  | entry::_ =>
    let order := m.reversePostorder entry
    let idom := immediate m entry order
    let children := layout.foldl (fun t b =>
      match parentIn (some entry) idom b with
      | none => t
      | some p => t.modify p (· ++ [b])) (.empty : BlockMap (List BlockId))
    let w := walk children (order.length + 1) ⟨0,.empty,.empty⟩ entry
    let frontier := frontiers m entry layout (order.length + 1) idom
    ⟨f,idom,children,frontier,byNumber,w.enter,w.leave⟩

namespace Dominance

def reachable (d : Dominance) (b : BlockId) : Bool := (d.idom.get b).isSome

/-- The immediate dominator; the entry that the function has now, and unreachable blocks, have none.
-/
def idom? (d : Dominance) (m : Module) (b : BlockId) : Option BlockId :=
  parentIn (m.func d.func).entryBlock? d.idom b

/-- Does every path from the entry to `b` pass through `a`? -/
def dominates (d : Dominance) (a b : BlockId) : Bool :=
  a = b || (d.reachable a && d.reachable b &&
    d.enter.get a ≤ d.enter.get b && d.leave.get b ≤ d.leave.get a)

/-- The dominance frontier, by ascending number. -/
def frontier (d : Dominance) (b : BlockId) : List BlockId :=
  (d.frontierNumbers.get b).filterMap d.byNumber.get

end Dominance
end CMinusF
