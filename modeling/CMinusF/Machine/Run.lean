import CMinusF.Binary32.Decimal
import CMinusF.Builtin
import CMinusF.Graph.Text
import CMinusF.Machine.Operation
import Std.Data.TreeMap

/-! Running the intermediate code. A machine executes one instruction at a time on a stack of
activations, and stops when its budget of instructions is spent; phis are not counted. -/
namespace CMinusF
open Numeric

/-- What outlives a call. -/
structure World where
  heap : Heap
  globals : Table (Option Nat)
  input : List Char
  output : String
  calls : Std.TreeMap String Nat
deriving Inhabited

structure Activation where
  func : FuncId
  args : List Datum
  /-- The values of the instructions that have run; the others are zero. -/
  registers : Table Datum
  block : BlockId
  /-- The instructions of the block still to run; in a caller, the first is the call. -/
  rest : List InstrId

structure Running where
  world : World
  active : Activation
  callers : List Activation

inductive Outcome where
  | running (s : Running)
  | returned (w : World) (v : Datum)
  | faulted (w : World) (e : RunError)

namespace Activation

def eval (m : Module) (globals : Table (Option Nat)) (a : Activation) : Operand → Datum
  | .literal c =>
    match (m.literal c).value with
    | .int n => .ofInt n
    | .float x => .ofFloat x
    | .undef _ => .zero
  | .global g => .ofAddress ⟨globals.get g,0⟩
  | .arg f i => if f = a.func then a.args.getD i .zero else .zero
  | .instr i => a.registers.get i
  | _ => .zero

/-- Enters a block: its phis take their values together, before any of them changes. -/
def enter (m : Module) (globals : Table (Option Nat)) (a : Activation) (pred : Option BlockId)
    (b : BlockId) : Activation :=
  let phis := m.phis b
  let values := phis.map fun phi =>
    ((pred.bind (m.incomingFor? phi)).map (a.eval m globals)).getD .zero
  let registers := (phis.zip values).foldl (fun r (i,v) => r.set i v) a.registers
  { a with registers := registers, block := b, rest := (m.block b).instrs.drop phis.length }

/-- Goes on after the instruction that is first in line, which has computed a value. -/
def advance (m : Module) (a : Activation) (v : Datum) : Activation :=
  match a.rest with
  | [] => a
  | i::rest =>
    if (m.instr i).type.isVoid then { a with rest := rest }
    else { a with rest := rest, registers := a.registers.set i v }

end Activation

namespace Run

def isOdd (n : Int) : Bool := n % 2 ≠ 0

/-- A call of a function that has no code. -/
def builtin (name : String) (args : List Datum) (w : World) : World × Except Fault Datum :=
  let arg := args.getD 0 .zero
  if name = Builtin.input.name then
    match Input.readInteger w.input with
    | (.ok n,rest) => ({ w with input := rest },.ok (.ofInt n))
    | (.error e,rest) => ({ w with input := rest },.error (.input e))
  else if name = Builtin.output.name then
    ({ w with output := w.output ++ toString (wrap32 arg.int) ++ "\n" },.ok .zero)
  else if name = Builtin.outputFloat.name then
    ({ w with output := w.output ++ arg.float.sixPlaces ++ "\n" },.ok .zero)
  else if name = Builtin.negativeIndex.name then (w,.error .negativeIndex)
  else (w,.error (.undefinedFunction name))

def countCall (w : World) (name : String) : World :=
  { w with calls := w.calls.insert name (w.calls.getD name 0 + 1) }

/-- The call that each caller is waiting for, the outermost first. -/
def callSites (m : Module) (callers : List Activation) : List Site :=
  callers.reverse.map fun a => ⟨(m.func a.func).name,a.rest.head?.elim "" m.instrText⟩

def faultHere (m : Module) (a : Activation) (callers : List Activation) (w : World)
    (e : Fault) : Outcome :=
  .faulted w (.fault (callSites m (a :: callers)) e)

def activation (m : Module) (globals : Table (Option Nat)) (f : FuncId) (args : List Datum) :
    Activation :=
  let a : Activation := ⟨f,args,.empty,default,[]⟩
  a.enter m globals none ((m.func f).entryBlock?.getD default)

def giveBack (m : Module) (w : World) (callers : List Activation) (v : Datum) : Outcome :=
  match callers with
  | [] => .returned w v
  | a::rest => .running ⟨w,a.advance m v,rest⟩

def step (m : Module) (s : Running) (i : InstrId) : Outcome :=
  let ⟨w,a,callers⟩ := s
  let x := m.instr i
  let eval := a.eval m w.globals
  match x.op with
  | .ret => giveBack m w callers ((x.operands.head?.map eval).getD .zero)
  | .br =>
    let target := match x.operands with
      | [c,yes,no] => if isOdd (eval c).int then yes else no
      | v::_ => v
      | [] => .hole
    match target with
    | .block b => .running ⟨w,a.enter m w.globals (some a.block) b,callers⟩
    | _ => faultHere m a callers w (.notExecutable x.op.name)
  | .call =>
    match m.callee? i with
    | none => faultHere m a callers w (.notExecutable x.op.name)
    | some f =>
      let args := (m.callArgs i).map eval
      let fn := m.func f
      let w := countCall w fn.name
      if fn.isDeclaration then
        match builtin fn.name args w with
        | (w,.ok v) => .running ⟨w,a.advance m v,callers⟩
        | (w,.error e) => faultHere m a callers w e
      else .running ⟨w,activation m w.globals f args,a :: callers⟩
  | _ =>
    let ops := x.operands.map eval
    let ⟨heap,globals,input,output,calls⟩ := w
    match Operation.execute x ops heap with
    | (heap,.ok v) => .running ⟨⟨heap,globals,input,output,calls⟩,a.advance m v,callers⟩
    | (heap,.error e) => faultHere m a callers ⟨heap,globals,input,output,calls⟩ e

/-- Runs until the outermost call ends or the budget is spent; tells what is left of the budget. -/
def run (m : Module) : Nat → Running → Nat × World × Except RunError Datum
  | budget, s =>
    match s.active.rest with
    | [] =>
      let block := (m.block s.active.block).name
      (budget,s.world,.error (.fault (callSites m s.callers)
        (.noTerminator (m.func s.active.func).name block)))
    | i::_ =>
      match budget with
      | 0 => (0,s.world,.error (.fault (callSites m s.callers) .stepLimit))
      | n+1 =>
        match step m s i with
        | .running s => run m n s
        | .returned w v => (n,w,.ok v)
        | .faulted w e => (n,w,.error e)

end Run

/-- A machine: the world it runs in and how many instructions it may still execute. -/
structure Machine where
  budget : Nat
  world : World
deriving Inhabited

namespace Machine

def addGlobal (m : Module) (s : Heap × Table (Option Nat)) (g : GlobalId) :
    Option (Heap × Table (Option Nat)) :=
  (s.1.allocate (m.global g).contents.length).map fun (heap,a) => (heap,s.2.set g a.object)

/-- A machine for a module, its globals new objects on a heap; there is none if one of them is
too long. -/
def new (m : Module) (heap : Heap) (input : String) (budget : Nat) : Option Machine :=
  (m.globals.foldlM (addGlobal m) (heap,.empty)).map fun (heap,globals) =>
    ⟨budget,⟨heap,globals,input.toList,"",∅⟩⟩

def callFunc (m : Module) (mc : Machine) (f : FuncId) (args : List Datum) :
    Machine × Except RunError Datum :=
  let fn := m.func f
  let w := Run.countCall mc.world fn.name
  if fn.isDeclaration then
    match Run.builtin fn.name args w with
    | (w,.ok v) => (⟨mc.budget,w⟩,.ok v)
    | (w,.error e) => (⟨mc.budget,w⟩,.error (.fault [] e))
  else
    let (budget,w,r) := Run.run m mc.budget ⟨w,Run.activation m w.globals f args,[]⟩
    (⟨budget,w⟩,r)

def call (m : Module) (mc : Machine) (name : String) (args : List Datum) :
    Machine × Except RunError Datum :=
  match m.func? name with
  | none => (mc,.error (.noFunction name))
  | some f =>
    let expected := (m.func f).params.length
    if args.length ≠ expected then (mc,.error (.argumentCount name expected args.length))
    else mc.callFunc m f args

/-- Runs `main`; its exit value is the low 32 bits of what it returns. -/
def main (m : Module) (mc : Machine) : Machine × Except RunError Int :=
  match mc.call m "main" [] with
  | (mc,.ok v) => (mc,.ok (wrap32 v.int))
  | (mc,.error e) => (mc,.error e)

end Machine
end CMinusF
