import CMinusF.Failure
import CMinusF.Text.Padding
import Std.Data.TreeMap

/-! The stack frame of a function. Every argument and every instruction with a value has a slot of
its own, addressed from the frame pointer; nothing is shared. -/
namespace CMinusF.Assembly
open Numeric

inductive SlotKind where
  | arg | value
  | object
  /-- A second place for a phi, from which its old value is read while phis are assigned. -/
  | shadow
deriving DecidableEq, Repr, Inhabited

def SlotKind.name : SlotKind → String
  | .arg => "arg"
  | .value => "value"
  | .object => "object"
  | .shadow => "shadow"

/-- The kinds by number; a number past the last stands for a shadow too. -/
def SlotKind.ofCode : Int → SlotKind
  | 0 => .arg
  | 1 => .value
  | 2 => .object
  | _ => .shadow

/-- The bytes from `offset` up to `offset + size`. -/
structure Slot where
  offset : Int
  size : Int
  kind : SlotKind
  name : String
deriving DecidableEq, Repr, Inhabited

def Slot.describe (s : Slot) : String :=
  s!"  {Text.padLeft 6 (toString s.offset)} {Text.padRight 6 s.kind.name} {s.size} {s.name}"

/-- Puts a slot among others in order of offset, in place of one with the same offset. -/
def insertSlot (s : Slot) : List Slot → List Slot
  | [] => [s]
  | t::ts =>
    if s.offset < t.offset then s :: t :: ts
    else if t.offset < s.offset then t :: insertSlot s ts
    else s :: ts

/-- The phi assignments made when control leaves a block. A phi without a pair for the block is
left alone: its value is not specified along that edge. -/
def edgeCopies (m : Module) (b : BlockId) : List (InstrId × Operand) :=
  (m.block b).succs.flatMap fun s =>
    (m.phis s).filterMap fun phi => (m.incomingFor? phi b).map fun v => (phi,v)

/-- The phis that some other assignment of the same block reads, in the order they are read. -/
def staged (copies : List (InstrId × Operand)) : List InstrId :=
  copies.foldl (fun done (dst,src) =>
    match src with
    | .instr p =>
      if copies.any (·.1 = p) && p ≠ dst && !done.contains p then done ++ [p] else done
    | _ => done) []

def shadowedPhis (m : Module) (f : FuncId) : List InstrId :=
  let layout := (m.func f).layout
  let need := layout.flatMap fun b => staged (edgeCopies m b)
  layout.flatMap fun b => (m.phis b).filter need.contains

def alignUp (n a : Int) : Int :=
  if a ≤ 1 then n else wrap64 ((wrap64 (n + a - 1)).tdiv a * a)

structure Frame where
  func : FuncId
  size : Int
  slots : List Slot
  args : List Int
  values : Std.TreeMap InstrId Int
  objects : Std.TreeMap InstrId Int
  shadows : Std.TreeMap InstrId Int
deriving Inhabited

namespace Frame

/-- The caller's return address and frame pointer take the first bytes below the frame pointer. -/
def savedBytes : Int := 16

def alignment : Int := 16

/-- Reserves room below what is reserved so far; `size` is that much while the frame grows. -/
def reserve (fr : Frame) (size align : Int) : Frame × Int :=
  let used := alignUp (wrap64 (fr.size + size)) align
  ({ fr with size := used },wrap64 (-used))

def addSlot (fr : Frame) (s : Slot) : Frame := { fr with slots := insertSlot s fr.slots }

/-- Gives a value a slot of its size, if that is a register's. -/
def place (fr : Frame) (t : Ty) (name : String) (kind : SlotKind) : Except Cause (Frame × Int) :=
  if t.size = 0 ∨ 8 < t.size then .error (.unsupported (.slotSize name t.text))
  else
    let (fr,off) := fr.reserve t.size t.size
    .ok (fr.addSlot ⟨off,t.size,kind,name⟩,off)

def placeArg (m : Module) (fr : Frame) (i : Nat) : Except Cause Frame := do
  let v : Operand := .arg fr.func i
  let (fr,off) ← fr.place (m.typeOf v) (m.refText v) .arg
  return { fr with args := fr.args ++ [off] }

def placeInstr (m : Module) (fr : Frame) (i : InstrId) : Except Cause Frame := do
  let x := m.instr i
  if x.type.isVoid then return fr
  let (fr,off) ← fr.place x.type (m.refText (.instr i)) .value
  let fr := { fr with values := fr.values.insert i off }
  if x.op ≠ .alloca then return fr
  let size := (x.object.getD .void).size
  let (fr,off) := fr.reserve size 8
  let fr := { fr with objects := fr.objects.insert i off }
  return if 0 < size then fr.addSlot ⟨off,size,.object,"*" ++ m.refText (.instr i)⟩ else fr

def placeShadow (m : Module) (fr : Frame) (phi : InstrId) : Frame :=
  let size := (m.instr phi).type.size
  let (fr,off) := fr.reserve size size
  let fr := { fr with shadows := fr.shadows.insert phi off }
  fr.addSlot ⟨off,size,.shadow,"'" ++ m.refText (.instr phi)⟩

/-- Looks for a slot that starts before `lower`, where the slot below it ends. -/
def overlap : Int → List Slot → Option Cause
  | lower, [] => if -savedBytes < lower then some .slotInSavedRegisters else none
  | lower, s::ss =>
    if s.offset < lower then some (.slotOverlap s.name s.offset)
    else overlap (wrap64 (s.offset + s.size)) ss

/-- The frame of a function: its arguments, its instructions in program order, then the shadows. -/
def layout (m : Module) (f : FuncId) : Except Failure Frame := do
  let fn := m.func f
  let fr : Frame := ⟨f,savedBytes,[],[],∅,∅,∅⟩
  let fr ← (List.range fn.params.length).foldlM (fun fr i => m.blame f none (fr.placeArg m i)) fr
  let instrs := fn.layout.flatMap fun b => (m.block b).instrs
  let fr ← instrs.foldlM (fun fr i => m.blame f (some i) (fr.placeInstr m i)) fr
  let fr := (shadowedPhis m f).foldl (placeShadow m) fr
  let fr := { fr with size := alignUp fr.size alignment }
  match overlap (wrap64 (-fr.size)) fr.slots with
  | some c => .error (.locate m f none c)
  | none => .ok fr

def offset? (fr : Frame) : Operand → Option Int
  | .arg f i => if f = fr.func then fr.args[i]? else none
  | .instr i => fr.values[i]?
  | _ => none

def describe (fr : Frame) : List String :=
  s!"frame size {fr.size}" :: fr.slots.reverse.map Slot.describe

end Frame
end CMinusF.Assembly
