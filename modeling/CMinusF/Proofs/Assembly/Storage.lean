import CMinusF.Proofs.Assembly.Layout
import CMinusF.Proofs.Compilation.Complete
import CMinusF.Proofs.Lowering.Admissible

/-! The storage of arrays. Sizes are products of 64 bits, so that an array has a place for each of
its elements exactly if it has fewer than `2 ^ 61` of them. -/
namespace CMinusF.Assembly
open Numeric List
variable {m : Module} {f : FuncId} {fr : Frame} {i : InstrId} {n : Int}

end CMinusF.Assembly
