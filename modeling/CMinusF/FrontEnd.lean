import CMinusF.Lowering
import CMinusF.Syntax.Parse

/-! From a source text to its intermediate code. -/
namespace CMinusF

inductive SourceError where
  | syntactic (e : SyntaxError)
  | lowering (file : String) (e : LoweringError)
deriving DecidableEq, Repr

def SourceError.message : SourceError → String
  | .syntactic e => e.message
  | .lowering file e => file ++ ": " ++ e.message

/-- Builds the code of a source text into a module, under the module's name. -/
def Module.addSource (m : Module) (source : String) : Except SourceError Module :=
  match Program.parse m.name source with
  | .error e => .error (.syntactic e)
  | .ok p =>
    match p.lower m with
    | .error e => .error (.lowering m.name e)
    | .ok m => .ok m

/-- The code of a source text, before any transformation. -/
def Module.ofSource (name source : String) : Except SourceError Module :=
  (Module.empty name).addSource source

end CMinusF
