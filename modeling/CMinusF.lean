import CMinusF.Main
import CMinusF.Proofs.Compilation.Complete
import CMinusF.Proofs.Graph.Drawing
import CMinusF.Proofs.Hoisting.Idempotent
import CMinusF.Proofs.Hoisting.WellFormed
import CMinusF.Proofs.Promotion.Joins
import CMinusF.Proofs.Purity.Accepted
import CMinusF.Proofs.Splitting.Critical
import CMinusF.Proofs.Token.Reading
import CMinusF.Proofs.Assembly.Comparison
import CMinusF.Proofs.Assembly.Stack
import CMinusF.Proofs.Assembly.Storage
import CMinusF.Proofs.Compilation.Stages
import CMinusF.Proofs.Ty.Spelling
import CMinusF.Proofs.Flow.Refinement
import CMinusF.Proofs.Machine.Budget
import CMinusF.Proofs.Purity.Speculation
