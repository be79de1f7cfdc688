import CMinusF.Assembly.Listing
import CMinusF.FrontEnd
import CMinusF.Graph.Redirect
import CMinusF.Transform.Pipeline

/-! Compiling a source text. A failure in one function leaves that function out and the others in.
-/
namespace CMinusF

structure Compilation where
  module : Module
  stats : Stats
  split : Nat
  /-- The functions that have a frame, with its size. -/
  frames : List (String × Int)
  listing : Assembly.Listing
  failures : List (FuncId × Failure)

namespace Compilation

/-- The module with its critical edges split, as far as its functions allow. -/
structure Prepared where
  module : Module
  split : Nat
  failures : List (FuncId × Failure)

def Prepared.isReady (p : Prepared) (f : FuncId) : Bool :=
  !(p.module.func f).isDeclaration && !p.failures.any (·.1 = f)

def splitFunc (p : Prepared) (f : FuncId) : Prepared :=
  if !p.isReady f then p
  else
    let r := p.module.splitCriticalEdges f
    match r.defect with
    | none => ⟨r.module,p.split + r.count,p.failures⟩
    | some d => ⟨r.module,p.split,p.failures ++ [(f,.locate r.module f none (.malformed d))]⟩

def prepare (m : Module) (o : Options) : Stats × Prepared :=
  let s := Pipeline.run m o
  (s.stats,s.module.funcs.foldl splitFunc ⟨s.module,0,s.failures⟩)

def transformed (m : Module) (o : Options) : Compilation :=
  let (stats,p) := prepare m o
  ⟨p.module,stats,p.split,[],⟨[],[]⟩,p.failures⟩

def ofModule (m : Module) (o : Options) : Compilation :=
  let (stats,p) := prepare m o
  let frames := (p.module.funcs.filter p.isReady).filterMap fun f =>
    match Assembly.Frame.layout p.module f with
    | .ok fr => some ((p.module.func f).name,fr.size)
    | .error _ => none
  let listing := Assembly.Listing.ofModule p.module p.isReady
  ⟨p.module,stats,p.split,frames,listing,p.failures ++ listing.failures⟩

def message (c : Compilation) : String := "\n".intercalate (c.failures.map (·.2.message))

end Compilation
end CMinusF
