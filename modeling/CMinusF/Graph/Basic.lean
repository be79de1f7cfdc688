import CMinusF.Binary32
import CMinusF.Ty
import CMinusF.Graph.Opcode
import CMinusF.Graph.Table

/-! The intermediate code as a graph: functions of blocks of instructions, each instruction listing
its operands, each operand listing the instructions that read it, each block listing its neighbours.
-/
namespace CMinusF

abbrev InstrId := Nat
abbrev FuncId := Nat
abbrev GlobalId := Nat
abbrev LiteralId := Nat

/-- A block is known by the function it was made in and its number there. -/
structure BlockId where
  func : FuncId
  number : Nat
deriving DecidableEq, Repr, Inhabited

/-- What an instruction can read. A literal has an identity of its own: two of one value differ. -/
inductive Operand where
  | literal (id : LiteralId)
  | global (id : GlobalId)
  | arg (func : FuncId) (index : Nat)
  | instr (id : InstrId)
  | block (id : BlockId)
  | func (id : FuncId)
  | hole
deriving DecidableEq, Repr, Inhabited

inductive Constant where
  | int (value : Int)
  | float (value : Binary32)
  | undef (type : Ty)
deriving DecidableEq, Repr, Inhabited

def Constant.type : Constant → Ty
  | .int _ => .i32
  | .float _ => .float
  | .undef t => t

structure Literal where
  value : Constant
  uses : List InstrId
deriving Repr, Inhabited

/-- A zero-initialised object; as an operand it is the object's address. -/
structure Global where
  name : String
  contents : Ty
  uses : List InstrId
deriving Repr, Inhabited

structure Instr where
  op : Opcode
  type : Ty
  /-- The number in the instruction's name; those without a value have none. -/
  number : Option Nat
  object : Option Ty
  operands : List Operand
  /-- The block the instruction believes it is in. -/
  parent : Option BlockId
  uses : List InstrId
deriving Repr, Inhabited

structure Block where
  name : String
  instrs : List InstrId
  preds : List BlockId
  succs : List BlockId
  uses : List InstrId
deriving Repr, Inhabited

/-- A function; one without blocks is a declaration. Its entry is the first block of the layout. -/
structure Func where
  name : String
  result : Ty
  params : List Ty
  layout : List BlockId
  blocks : Table Block
  numbered : Nat
  argUses : Table (List InstrId)
  uses : List InstrId
deriving Repr, Inhabited

/-- A module lists its globals and functions; the tables may hold more than is listed. -/
structure Module where
  name : String
  globals : List GlobalId
  funcs : List FuncId
  globalTable : Table Global
  funcTable : Table Func
  instrTable : Table Instr
  literalTable : Table Literal
deriving Repr, Inhabited

namespace Func

def isDeclaration (f : Func) : Bool := f.layout.isEmpty

def entryBlock? (f : Func) : Option BlockId := f.layout.head?

def type (f : Func) : Ty := .function f.result f.params

end Func

namespace Module

def empty (name : String) : Module := ⟨name,[],[],.empty,.empty,.empty,.empty⟩

/-! Looking things up. -/

def global (m : Module) (g : GlobalId) : Global := m.globalTable.get g
def func (m : Module) (f : FuncId) : Func := m.funcTable.get f
def instr (m : Module) (i : InstrId) : Instr := m.instrTable.get i
def literal (m : Module) (c : LiteralId) : Literal := m.literalTable.get c
def block (m : Module) (b : BlockId) : Block := (m.func b.func).blocks.get b.number

def func? (m : Module) (name : String) : Option FuncId :=
  m.funcs.find? fun f => (m.func f).name == name

def typeOf (m : Module) : Operand → Ty
  | .literal c => (m.literal c).value.type
  | .global g => .pointer (m.global g).contents
  | .arg f i => (m.func f).params.getD i .void
  | .instr i => (m.instr i).type
  | .block _ => .label
  | .func f => (m.func f).type
  | .hole => .void

/-- The instructions that read an operand, one entry for each slot. -/
def uses (m : Module) : Operand → List InstrId
  | .literal c => (m.literal c).uses
  | .global g => (m.global g).uses
  | .arg f i => (m.func f).argUses.get i
  | .instr i => (m.instr i).uses
  | .block b => (m.block b).uses
  | .func f => (m.func f).uses
  | .hole => []

/-! Changing one thing and leaving the rest. -/

def modifyGlobal (m : Module) (g : GlobalId) (h : Global → Global) : Module :=
  { m with globalTable := m.globalTable.modify g h }

def modifyFunc (m : Module) (f : FuncId) (h : Func → Func) : Module :=
  { m with funcTable := m.funcTable.modify f h }

def modifyInstr (m : Module) (i : InstrId) (h : Instr → Instr) : Module :=
  { m with instrTable := m.instrTable.modify i h }

def modifyLiteral (m : Module) (c : LiteralId) (h : Literal → Literal) : Module :=
  { m with literalTable := m.literalTable.modify c h }

def modifyBlock (m : Module) (b : BlockId) (h : Block → Block) : Module :=
  m.modifyFunc b.func fun f => { f with blocks := f.blocks.modify b.number h }

def modifyUses (m : Module) (v : Operand) (h : List InstrId → List InstrId) : Module :=
  match v with
  | .literal c => m.modifyLiteral c fun x => { x with uses := h x.uses }
  | .global g => m.modifyGlobal g fun x => { x with uses := h x.uses }
  | .arg f i => m.modifyFunc f fun x => { x with argUses := x.argUses.modify i h }
  | .instr i => m.modifyInstr i fun x => { x with uses := h x.uses }
  | .block b => m.modifyBlock b fun x => { x with uses := h x.uses }
  | .func f => m.modifyFunc f fun x => { x with uses := h x.uses }
  | .hole => m

/-! What a change does to what can be looked up. -/

theorem instr_modifyInstr (m : Module) (i : InstrId) (h : Instr → Instr) (j : InstrId) :
    (m.modifyInstr i h).instr j = if i = j then h (m.instr i) else m.instr j := by
  simp [instr,modifyInstr,Table.get_modify]

theorem func_modifyFunc (m : Module) (f : FuncId) (h : Func → Func) (g : FuncId) :
    (m.modifyFunc f h).func g = if f = g then h (m.func f) else m.func g := by
  simp [func,modifyFunc,Table.get_modify]

theorem block_modifyBlock (m : Module) (b : BlockId) (h : Block → Block) (c : BlockId) :
    (m.modifyBlock b h).block c = if b = c then h (m.block b) else m.block c := by
  obtain ⟨f,n⟩ := b
  obtain ⟨g,k⟩ := c
  simp only [block,modifyBlock,func_modifyFunc]
  by_cases hf : f = g
  · subst hf
    by_cases hn : n = k <;> simp [hn,Table.get_modify]
  · simp [hf]

theorem uses_modifyUses (m : Module) {v : Operand} (h : List InstrId → List InstrId)
    (hv : v ≠ .hole) (w : Operand) : (m.modifyUses v h).uses w = if v = w then h (m.uses v)
      else m.uses w := by
  by_cases hb : ∃ b c, v = .block b ∧ w = .block c
  · obtain ⟨b,c,rfl,rfl⟩ := hb
    simp only [modifyUses,uses,block_modifyBlock,Operand.block.injEq]
    split <;> simp_all
  · cases v <;> cases w <;>
      simp [modifyUses,uses,modifyLiteral,modifyGlobal,modifyFunc,modifyInstr,modifyBlock,
        literal,global,func,instr,block,Table.get_modify] at hv hb ⊢
    all_goals split <;> simp_all [Table.get_modify]

end Module
end CMinusF
