import CMinusF.Graph.Build
import CMinusF.Lowering.Error
import CMinusF.Syntax

/-! The state in which code is built: the module so far, the present block, and the names in scope.
-/
namespace CMinusF
namespace Lowering

def scalarType : Scalar → Ty
  | .int => .i32
  | .float => .float

def resultType : Option Scalar → Ty
  | none => .void
  | some s => scalarType s

def variableType (d : VariableDecl) : Ty :=
  match d.length with
  | some n => .array n (scalarType d.scalar)
  | none => scalarType d.scalar

def parameterType (p : Parameter) : Ty :=
  if p.isArray then .pointer (scalarType p.scalar) else scalarType p.scalar

/-- A named place in memory: its address and the type of what is there. -/
structure Symbol where
  address : Operand
  type : Ty
deriving Repr, Inhabited

def Symbol.isVariable (s : Symbol) : Bool := s.type.isScalar && !s.type.isPointer

abbrev Scope := List (String × Symbol)

/-- What is visible at a point of a function; inner scopes stand first. -/
structure Context where
  func : FuncId
  name : String
  result : Ty
  funcs : List (String × FuncId)
  globals : Scope
  scopes : List Scope

/-- The module so far, the block being built, and whether that block has already ended. -/
structure State where
  module : Module
  block : BlockId
  dead : Bool

abbrev Build (α : Type) := StateT State (Except LoweringError) α

def fail {α : Type} (position : Option Position) (cause : LoweringCause) : Build α :=
  fun _ => .error ⟨position,cause⟩

def edit {α : Type} (h : Module → Module × α) : Build α
  | ⟨m,b,dead⟩ =>
    let (m,a) := h m
    .ok (a,⟨m,b,dead⟩)

def emit (h : Module → BlockId → Module × InstrId) : Build Operand
  | ⟨m,b,dead⟩ =>
    let (m,i) := h m b
    .ok (.instr i,⟨m,b,dead⟩)

def emit_ (h : Module → BlockId → Module × InstrId) : Build Unit := do
  let _ ← emit h

def constant (c : Constant) : Build Operand := edit (·.addLiteral c)

def typeOf (v : Operand) : Build Ty := return (← get).module.typeOf v

def newBlock (c : Context) (hint : String) : Build BlockId := edit (·.addBlock c.func hint)

def setBlock (b : BlockId) : Build Unit := modify fun s => { s with block := b, dead := false }

def finish : Build Unit := modify fun s => { s with dead := true }

def isDead : Build Bool := return (← get).dead

def find? {α : Type} (name : String) (l : List (String × α)) : Option α := l.lookup name

def lookup (c : Context) (pos : Position) (name : String) : Build Symbol :=
  match (c.scopes ++ [c.globals]).findSome? (find? name) with
  | some s => return s
  | none => fail pos (.undefinedVariable name)

end Lowering
end CMinusF
