import CMinusF.Transform.Hoisting
import CMinusF.Transform.Promotion

/-! The transformations over a whole module. The code is checked before the first and after each; a
function that fails anywhere is recorded and left alone from there on. -/
namespace CMinusF

structure Options where
  promote : Bool
  hoist : Bool
deriving DecidableEq, Repr, Inhabited

structure Stats where
  promotion : Promotion.Stats
  hoisting : Hoisting.Stats
deriving DecidableEq, Repr, Inhabited

namespace Pipeline

/-- The module so far, what was done, and the failures in the order they were found. -/
structure State where
  module : Module
  stats : Stats
  failures : List (FuncId × Failure)

def State.failed (s : State) (f : FuncId) : Bool := s.failures.any (·.1 = f)

def check (s : State) (f : FuncId) : State :=
  if (s.module.func f).isDeclaration then s
  else
    match s.module.verify f with
    | .ok _ => s
    | .error e => { s with failures := s.failures ++ [(f,e)] }

/-- Records the outcome of a transformation of one function, `stats` being those with it counted. -/
def conclude (stage : Stage) (s : State) (f : FuncId) (m : Module) (failure : Option Failure)
    (stats : Stats) : State :=
  match failure with
  | some e => ⟨m,s.stats,s.failures ++ [(f,e)]⟩
  | none =>
    match m.verify f with
    | .ok _ => ⟨m,stats,s.failures⟩
    | .error e => ⟨m,s.stats,s.failures ++ [(f,{ e with after := some stage })]⟩

def promote (s : State) (f : FuncId) : State :=
  if (s.module.func f).isDeclaration || s.failed f then s
  else
    let r := Promotion.run s.module f (s.module.dominators f)
    let t := s.stats.promotion
    conclude .promotion s f r.module r.failure
      { s.stats with promotion := ⟨t.promoted + r.stats.promoted,t.phis + r.stats.phis⟩ }

def hoist (p : Purity) (s : State) (f : FuncId) : State :=
  if (s.module.func f).isDeclaration || s.failed f then s
  else
    let r := Hoisting.run s.module f (s.module.findLoops f (s.module.dominators f)) p
    let t := s.stats.hoisting
    conclude .hoisting s f r.module r.failure
      { s.stats with hoisting := ⟨t.hoisted + r.stats.hoisted,t.preheaders + r.stats.preheaders⟩ }

def run (m : Module) (o : Options) : State :=
  let s := m.funcs.foldl check ⟨m,default,[]⟩
  let s := if o.promote then m.funcs.foldl promote s else s
  if o.hoist then m.funcs.foldl (hoist s.module.purity) s else s

end Pipeline
end CMinusF
