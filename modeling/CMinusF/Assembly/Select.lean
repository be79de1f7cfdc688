import CMinusF.Assembly.Access

/-! Code for single instructions. Operands are loaded from their slots right before they are used,
and the result is stored to its slot right after. -/
namespace CMinusF.Assembly
open Numeric

namespace Scope

/-! Entry and exit of the function. -/

def argumentRegs : List Reg := [.a0,.a1,.a2,.a3,.a4,.a5,.a6,.a7]
def floatArgumentRegs : List FReg := [.fa0,.fa1,.fa2,.fa3,.fa4,.fa5,.fa6,.fa7]

/-- Hands out registers to values in order, those of each class from its own row; `noGeneral` and
`noFloat` are the causes of failure when a row is used up. -/
def passArguments (s : Scope) (general : Operand → Reg → Except Cause (List Inst))
    (float : Operand → FReg → Except Cause (List Inst)) (noGeneral noFloat : Cause) :
    List Reg → List FReg → List Operand → Except Cause (List Inst)
  | _, _, [] => .ok []
  | rs, fs, v::vs =>
    if (s.module.typeOf v).isFloat then
      match fs with
      | [] => .error noFloat
      | r::fs => do
        let code ← float v r
        return code ++ (← passArguments s general float noGeneral noFloat rs fs vs)
    else
      match rs with
      | [] => .error noGeneral
      | r::rs => do
        let code ← general v r
        return code ++ (← passArguments s general float noGeneral noFloat rs fs vs)

def openFrame (size : Int) : List Inst :=
  if fitsImm (wrap64 (-size)) then
    [.st .double .ra .sp (-8),.st .double .fp .sp (-16),.addiD .fp .sp 0,
      .addiD .sp .sp (wrap64 (-size))]
  else
    load64 size .t0 ++
      [.st .double .ra .sp (-8),.st .double .fp .sp (-16),.subD .sp .sp .t0,.addD .fp .sp .t0]

def closeFrame (size : Int) : List Inst :=
  (if fitsImm size then [.addiD .sp .sp size] else load64 size .t0 ++ [.addD .sp .sp .t0]) ++
    [.ld .double .ra .sp (-8),.ld .double .fp .sp (-16),.jr .ra]

def prologue (s : Scope) : Except Cause (List Inst) := do
  let params := (List.range s.func.params.length).map fun i => Operand.arg s.frame.func i
  let args ← s.passArguments s.store s.storeFloat (.unsupported .integerParameters)
    (.unsupported .floatParameters) argumentRegs floatArgumentRegs params
  return openFrame s.frame.size ++ args

/-! Phis. -/

def shadowOffset (s : Scope) (phi : InstrId) : Int := s.frame.shadows.getD phi 0

def stage (s : Scope) (phi : InstrId) : Except Cause (List Inst) := do
  let t := (s.module.instr phi).type
  if t.isFloat then
    return (← s.loadFloat (.instr phi) .fa0) ++ storeFloatSlot (s.shadowOffset phi) .fa0
  else
    let code ← s.load (.instr phi) .a0
    return code ++ (← storeSlot (s.shadowOffset phi) t .a0)

/-- Assigns one phi; a staged source is read from its shadow. -/
def assign (s : Scope) (stagedPhis : List InstrId) (dst : InstrId) (src : Operand) :
    Except Cause (List Inst) := do
  let t := (s.module.instr dst).type
  let shadow : Option Int := match src with
    | .instr p => if stagedPhis.contains p then some (s.shadowOffset p) else none
    | _ => none
  if t.isFloat then
    let code ← match shadow with
      | some off => pure (loadFloatSlot off .fa0)
      | none => s.loadFloat src .fa0
    return code ++ (← s.storeFloat (.instr dst) .fa0)
  else
    let code ← match shadow with
      | some off => loadSlot off t .a0
      | none => s.load src .a0
    return code ++ (← s.store (.instr dst) .a0)

/-- Gives the phis of the successors their values for the edges that leave a block. What another
assignment reads is staged first, so that each sees the values from before. -/
def assignPhis (s : Scope) (b : BlockId) : Except Cause (List Inst) := do
  let copies := edgeCopies s.module b
  let stagedPhis := staged copies
  let staging ← stagedPhis.mapM s.stage
  let assigning ← copies.mapM fun (dst,src) => s.assign stagedPhis dst src
  return staging.flatten ++ assigning.flatten

/-! Single operations. -/

def leaveLabel (s : Scope) : Label := .leave s.func.name

def blockLabel (s : Scope) (v : Operand) : Label :=
  match v with
  | .block b => .block s.func.name (s.module.block b).name
  | _ => .block s.func.name ""

def ret (s : Scope) (i : InstrId) : Except Cause (List Inst) := do
  let code ← match s.module.operands i with
    | [] => pure [.addiW .a0 .zero 0]
    | v::_ => if (s.module.typeOf v).isFloat then s.loadFloat v .fa0 else s.load v .a0
  return code ++ [.b s.leaveLabel]

/-- The condition is read before the phis are assigned, which may change its slot. -/
def branch (s : Scope) (i : InstrId) : Except Cause (List Inst) := do
  let op := s.module.operand i
  let condition ← if s.module.isCondBr i then s.load (op 0) .t0 else pure []
  let copies ← s.assignPhis ((s.module.instr i).parent.getD default)
  let jump : List Inst :=
    if s.module.isCondBr i then
      [.lowBitD .t0 .t0,.bnez .t0 (s.blockLabel (op 1)),.b (s.blockLabel (op 2))]
    else [.b (s.blockLabel (op 0))]
  return condition ++ copies ++ jump

def intArith (s : Scope) (i : InstrId) (o : Arith) : Except Cause (List Inst) := do
  let x ← s.load (s.module.operand i 0) .t0
  let y ← s.load (s.module.operand i 1) .t1
  return x ++ y ++ .arithW o .t2 .t0 .t1 :: (← s.store (.instr i) .t2)

def floatArith (s : Scope) (i : InstrId) (o : Arith) : Except Cause (List Inst) := do
  let x ← s.loadFloat (s.module.operand i 0) .ft0
  let y ← s.loadFloat (s.module.operand i 1) .ft1
  return x ++ y ++ .arithS o .ft2 .ft0 .ft1 :: (← s.storeFloat (.instr i) .ft2)

def alloca (s : Scope) (i : InstrId) : Except Cause (List Inst) := do
  let off := s.frame.objects.getD i 0
  let address := if fitsImm off then [.addiD .t0 .fp off]
    else load64 off .t0 ++ [.addD .t0 .fp .t0]
  return address ++ (← s.store (.instr i) .t0)

def memoryLoad (s : Scope) (i : InstrId) : Except Cause (List Inst) := do
  let t := (s.module.instr i).type
  let address ← s.load (s.module.operand i 0) .t0
  if t.isFloat then
    return address ++ .fld .ft0 .t0 0 :: (← s.storeFloat (.instr i) .ft0)
  else
    match width? t with
    | none => .error (.unsupported (.loadOf t.text))
    | some w => return address ++ .ld w .t1 .t0 0 :: (← s.store (.instr i) .t1)

def memoryStore (s : Scope) (i : InstrId) : Except Cause (List Inst) := do
  let v := s.module.operand i 0
  let t := s.module.typeOf v
  let address ← s.load (s.module.operand i 1) .t0
  if t.isFloat then
    return address ++ (← s.loadFloat v .ft0) ++ [.fst .ft0 .t0 0]
  else
    match width? t with
    | none => .error (.unsupported (.storeOf t.text))
    | some w => return address ++ (← s.load v .t1) ++ [.st w .t1 .t0 0]

/-- Every relation from `slt`; `xori` turns a result of 0 or 1 round. -/
def relationCode (r : Relation) (rd x y scratch : Reg) : List Inst :=
  match r with
  | .lt => [.slt rd x y]
  | .gt => [.slt rd y x]
  | .ge => [.slt rd x y,.xori rd rd 1]
  | .le => [.slt rd y x,.xori rd rd 1]
  | .ne => [.slt rd x y,.slt scratch y x,.or rd rd scratch]
  | .eq => [.slt rd x y,.slt scratch y x,.or rd rd scratch,.xori rd rd 1]

def intCompare (s : Scope) (i : InstrId) (r : Relation) : Except Cause (List Inst) := do
  let x ← s.load (s.module.operand i 0) .t0
  let y ← s.load (s.module.operand i 1) .t1
  return x ++ y ++ relationCode r .t2 .t0 .t1 .t3 ++ (← s.store (.instr i) .t2)

def floatRelationCode (r : Relation) (x y : FReg) : Inst :=
  match r with
  | .lt => .fcmp .slt x y
  | .le => .fcmp .sle x y
  | .gt => .fcmp .slt y x
  | .ge => .fcmp .sle y x
  | .eq => .fcmp .seq x y
  | .ne => .fcmp .sne x y

/-- Branches to one of two places, where 1 or 0 is stored; `n` tells the comparisons of a function
apart. -/
def floatCompare (s : Scope) (i : InstrId) (r : Relation) (n : Nat) : Except Cause (List Line) := do
  let x ← s.loadFloat (s.module.operand i 0) .ft0
  let y ← s.loadFloat (s.module.operand i 1) .ft1
  let store ← s.store (.instr i) .t0
  let place (part : ComparePart) : Label := .compare s.func.name part n
  let set (value : Int) : List Line := (.addiW .t0 .zero value :: store).map .inst
  return (x ++ y ++ [floatRelationCode r .ft0 .ft1,.bceqz (place .fails)]).map .inst ++
    .label (place .holds) :: set 1 ++
    [.inst (.b (place .done)),.label (place .fails)] ++ set 0 ++
    [.label (place .done)]

def call (s : Scope) (i : InstrId) : Except Cause (List Inst) := do
  match s.module.callee? i with
  | none => .error (.unsupported .indirectCall)
  | some f =>
    let name := (s.module.func f).name
    let args ← s.passArguments s.load s.loadFloat (.unsupported (.integerArguments name))
      (.unsupported (.floatArguments name)) argumentRegs floatArgumentRegs (s.module.callArgs i)
    let t := (s.module.instr i).type
    let result ← if t.isVoid then pure []
      else if t.isFloat then s.storeFloat (.instr i) .fa0
      else s.store (.instr i) .a0
    return args ++ .bl name :: result

/-- The base and the last index times the size of an element: a first index into an array is always
zero. -/
def elementAddress (s : Scope) (i : InstrId) : Except Cause (List Inst) := do
  let ops := s.module.operands i
  let base ← s.load (s.module.operand i 0) .t0
  let index ← s.load (s.module.operand i (ops.length - 1)) .t1
  let size := ((s.module.instr i).type.elem?.getD .void).size
  return base ++ index ++ loadImm (wrap32 size) .t2 ++
    [.arithW .mul .t3 .t1 .t2,.addD .t3 .t0 .t3] ++ (← s.store (.instr i) .t3)

def zext (s : Scope) (i : InstrId) : Except Cause (List Inst) := do
  let x ← s.load (s.module.operand i 0) .t0
  return x ++ .lowBitW .t1 .t0 :: (← s.store (.instr i) .t1)

def fptosi (s : Scope) (i : InstrId) : Except Cause (List Inst) := do
  let x ← s.loadFloat (s.module.operand i 0) .ft0
  return x ++ .truncate .ft1 .ft0 :: .toGeneral .t0 .ft1 :: (← s.store (.instr i) .t0)

def sitofp (s : Scope) (i : InstrId) : Except Cause (List Inst) := do
  let x ← s.load (s.module.operand i 0) .t0
  return x ++ .toFloat .ft0 .t0 :: .convert .ft1 .ft0 :: (← s.storeFloat (.instr i) .ft1)

/-- The code of an instruction. Phis have none: they are assigned at the ends of their predecessors.
-/
def select (s : Scope) (i : InstrId) (compares : Nat) : Except Cause (List Line) :=
  let lines (r : Except Cause (List Inst)) : Except Cause (List Line) := r.map (·.map .inst)
  match (s.module.instr i).op with
  | .ret => lines (s.ret i)
  | .br => lines (s.branch i)
  | .int o => lines (s.intArith i o)
  | .float o => lines (s.floatArith i o)
  | .alloca => lines (s.alloca i)
  | .load => lines (s.memoryLoad i)
  | .store => lines (s.memoryStore i)
  | .icmp r => lines (s.intCompare i r)
  | .fcmp r => s.floatCompare i r compares
  | .phi => .ok []
  | .call => lines (s.call i)
  | .gep => lines (s.elementAddress i)
  | .zext => lines (s.zext i)
  | .fptosi => lines (s.fptosi i)
  | .sitofp => lines (s.sitofp i)
  | .unknown n => .error (.unsupported (.opcode (Opcode.unknown n).name))

end Scope
end CMinusF.Assembly
