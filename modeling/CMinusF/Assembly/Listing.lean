import CMinusF.Assembly.Select

/-! Whole functions and modules as assembly. -/
namespace CMinusF.Assembly

/-- The lines of instructions in order; `compares` counts the floating-point comparisons before
them. -/
def Scope.instrLines (s : Scope) : Nat → List InstrId → Except Failure (List Line)
  | _, [] => .ok []
  | compares, i::is => do
    let code ← s.module.blame s.frame.func (some i) (s.select i compares)
    let counted := if (s.module.instr i).op.isFloatCompare then compares + 1 else compares
    return .comment (s.module.instrText i) :: code ++ (← s.instrLines counted is)

def Scope.blockLines (s : Scope) : Nat → List BlockId → Except Failure (List Line)
  | _, [] => .ok []
  | compares, b::bs => do
    let instrs := (s.module.block b).instrs
    let code ← s.instrLines compares instrs
    let counted := compares + instrs.countP fun i => (s.module.instr i).op.isFloatCompare
    return .label (s.blockLabel (.block b)) :: code ++ (← s.blockLines counted bs)

/-- The code of a function: symbol, frame, prologue, blocks, and the way out that all returns share.
-/
def functionLines (m : Module) (f : FuncId) : Except Failure (List Line) := do
  m.verify f
  let frame ← Frame.layout m f
  let s : Scope := ⟨m,frame⟩
  let name := s.func.name
  let head : List Line :=
    [.directive (.globl name),.directive (.function name),.label (.symbol name)]
  let prologue ← m.blame f none s.prologue
  let body ← s.blockLines 0 s.func.layout
  return head ++ frame.describe.map .comment ++ prologue.map .inst ++ body ++
    .label s.leaveLabel :: (Scope.closeFrame frame.size).map .inst

def globalLines (x : Global) : List Line :=
  let size := x.contents.size
  [.directive (.globl x.name),.directive (.object x.name),.directive (.size x.name size),
    .label (.symbol x.name),.directive (.space size)]

/-- The globals, and the start of the code. -/
def header (m : Module) : List Line :=
  (if m.globals.isEmpty then []
    else .comment "Global variables" :: .directive .text :: .directive .bss ::
      m.globals.flatMap fun g => globalLines (m.global g)) ++ [.directive .text]

structure Listing where
  lines : List Line
  failures : List (FuncId × Failure)

/-- The code of a module's functions, in order; one that fails is left out. -/
def Listing.ofFuncs (m : Module) (fs : List FuncId) : Listing :=
  let outcomes := fs.map fun f => (f,functionLines m f)
  ⟨header m ++ outcomes.flatMap fun (_,r) => r.toOption.getD [],
    outcomes.filterMap fun (f,r) =>
      match r with
      | .ok _ => none
      | .error e => some (f,e)⟩

def Listing.ofModule (m : Module) (keep : FuncId → Bool) : Listing :=
  ofFuncs m (m.funcs.filter fun f => !(m.func f).isDeclaration && keep f)

def Listing.text (l : Listing) : String := textOf l.lines

end CMinusF.Assembly
