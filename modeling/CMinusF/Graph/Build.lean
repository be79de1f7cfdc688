import CMinusF.Graph.Edit

/-! Making globals, functions, blocks and instructions. -/
namespace CMinusF.Module

def addGlobal (m : Module) (name : String) (contents : Ty) : Module × GlobalId :=
  let g := m.globalTable.size
  ({ m with globals := m.globals ++ [g], globalTable := m.globalTable.push ⟨name,contents,[]⟩ },g)

/-- A function without blocks; it stays a declaration until it gets one. -/
def addFunc (m : Module) (name : String) (result : Ty) (params : List Ty) : Module × FuncId :=
  let f := m.funcTable.size
  ({ m with
      funcs := m.funcs ++ [f]
      funcTable := m.funcTable.push ⟨name,result,params,[],.empty,0,.empty,[]⟩ },f)

def addLiteral (m : Module) (c : Constant) : Module × Operand :=
  let l := m.literalTable.size
  ({ m with literalTable := m.literalTable.push ⟨c,[]⟩ },.literal l)

/-- Makes a block that is in no layout yet; its name is the hint and its number. -/
def makeBlock (m : Module) (f : FuncId) (hint : String) : Module × BlockId :=
  let n := (m.func f).blocks.size
  let name := (if hint = "" then "bb" else hint) ++ toString n
  (m.modifyFunc f fun x => { x with blocks := x.blocks.push ⟨name,[],[],[],[]⟩ },⟨f,n⟩)

def addBlock (m : Module) (f : FuncId) (hint : String) : Module × BlockId :=
  let (m,b) := m.makeBlock f hint
  (m.modifyFunc f fun x => { x with layout := x.layout ++ [b] },b)

/-- A block directly before `place`, or at the end of the layout if `place` is not in it. -/
def addBlockBefore (m : Module) (f : FuncId) (hint : String) (place : BlockId) : Module × BlockId :=
  let (m,b) := m.makeBlock f hint
  let n := (m.func f).layout.idxOf place
  (m.modifyFunc f fun x => { x with layout := x.layout.take n ++ b :: x.layout.drop n },b)

/-- Makes an instruction of a function that is in no block yet; one with a value gets a number. -/
def makeInstr (m : Module) (f : FuncId) (op : Opcode) (type : Ty) (object : Option Ty)
    (operands : List Operand) : Module × InstrId :=
  let i := m.instrTable.size
  let number := if type.isVoid then none else some (m.func f).numbered
  let m := if type.isVoid then m else m.modifyFunc f fun x => { x with numbered := x.numbered + 1 }
  let m := { m with instrTable := m.instrTable.push ⟨op,type,number,object,operands,none,[]⟩ }
  (operands.foldl (fun m v => m.addUse v i) m,i)

def emit (m : Module) (b : BlockId) (op : Opcode) (type : Ty) (operands : List Operand) :
    Module × InstrId :=
  let (m,i) := m.makeInstr b.func op type none operands
  (m.append b i,i)

/-! The operations, each at the end of a block. -/

/-- An operation whose result has its first operand's type. -/
def binary (m : Module) (b : BlockId) (op : Opcode) (x y : Operand) : Module × InstrId :=
  m.emit b op (m.typeOf x) [x,y]

def compare (m : Module) (b : BlockId) (op : Opcode) (x y : Operand) : Module × InstrId :=
  m.emit b op .i1 [x,y]

def alloca (m : Module) (b : BlockId) (t : Ty) : Module × InstrId :=
  let (m,i) := m.makeInstr b.func .alloca (.pointer t) (some t) []
  (m.append b i,i)

/-- An `alloca` after those the entry block of a function starts with. -/
def allocaAtEntry (m : Module) (f : FuncId) (t : Ty) : Module × InstrId :=
  let entry := (m.func f).entryBlock?.getD default
  let (m,i) := m.makeInstr entry.func .alloca (.pointer t) (some t) []
  let leading := (m.block entry).instrs.takeWhile fun i => (m.instr i).op = .alloca
  (m.insertAt entry leading.length i,i)

def pointee (t : Ty) : Ty := t.elem?.getD .void

def load (m : Module) (b : BlockId) (ptr : Operand) : Module × InstrId :=
  m.emit b .load (pointee (m.typeOf ptr)) [ptr]

def store (m : Module) (b : BlockId) (v ptr : Operand) : Module × InstrId :=
  m.emit b .store .void [v,ptr]

/-- The address of an element: one index from a pointer to elements, two from a pointer to an array.
-/
def gep (m : Module) (b : BlockId) (ptr : Operand) (indices : List Operand) : Module × InstrId :=
  let elem := pointee (m.typeOf ptr)
  let elem := if indices.length = 2 then pointee elem else elem
  m.emit b .gep (.pointer elem) (ptr :: indices)

def zext (m : Module) (b : BlockId) (v : Operand) : Module × InstrId := m.emit b .zext .i32 [v]
def fptosi (m : Module) (b : BlockId) (v : Operand) : Module × InstrId := m.emit b .fptosi .i32 [v]
def sitofp (m : Module) (b : BlockId) (v : Operand) : Module × InstrId :=
  m.emit b .sitofp .float [v]

def call (m : Module) (b : BlockId) (f : FuncId) (args : List Operand) : Module × InstrId :=
  m.emit b .call (m.func f).result (.func f :: args)

def ret (m : Module) (b : BlockId) (v : Option Operand) : Module × InstrId :=
  m.emit b .ret .void v.toList

def br (m : Module) (b target : BlockId) : Module × InstrId :=
  let (m,i) := m.emit b .br .void [.block target]
  (m.addEdge b target,i)

def condBr (m : Module) (b : BlockId) (condition : Operand) (yes no : BlockId) : Module × InstrId :=
  let (m,i) := m.emit b .br .void [condition,.block yes,.block no]
  ((m.addEdge b yes).addEdge b no,i)

/-- A phi without incoming values, after those the block starts with. -/
def newPhi (m : Module) (b : BlockId) (t : Ty) : Module × InstrId :=
  let (m,i) := m.makeInstr b.func .phi t none []
  (m.insertAt b (m.phis b).length i,i)

end CMinusF.Module
