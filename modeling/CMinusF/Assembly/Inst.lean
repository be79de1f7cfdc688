import CMinusF.Graph.Opcode
import CMinusF.Ty

/-! The part of LoongArch64 that the code uses, and how it is written. -/
namespace CMinusF.Assembly

inductive Reg where
  | zero | ra | sp | fp
  | a0 | a1 | a2 | a3 | a4 | a5 | a6 | a7
  | t0 | t1 | t2 | t3 | t8
deriving DecidableEq, Repr, Inhabited

def Reg.text : Reg → String
  | .zero => "$zero"
  | .ra => "$ra"
  | .sp => "$sp"
  | .fp => "$fp"
  | .a0 => "$a0"
  | .a1 => "$a1"
  | .a2 => "$a2"
  | .a3 => "$a3"
  | .a4 => "$a4"
  | .a5 => "$a5"
  | .a6 => "$a6"
  | .a7 => "$a7"
  | .t0 => "$t0"
  | .t1 => "$t1"
  | .t2 => "$t2"
  | .t3 => "$t3"
  | .t8 => "$t8"

inductive FReg where
  | fa0 | fa1 | fa2 | fa3 | fa4 | fa5 | fa6 | fa7
  | ft0 | ft1 | ft2
deriving DecidableEq, Repr, Inhabited

def FReg.text : FReg → String
  | .fa0 => "$fa0"
  | .fa1 => "$fa1"
  | .fa2 => "$fa2"
  | .fa3 => "$fa3"
  | .fa4 => "$fa4"
  | .fa5 => "$fa5"
  | .fa6 => "$fa6"
  | .fa7 => "$fa7"
  | .ft0 => "$ft0"
  | .ft1 => "$ft1"
  | .ft2 => "$ft2"

inductive Width where
  | byte | word | double
deriving DecidableEq, Repr, Inhabited

def Width.suffix : Width → String
  | .byte => "b"
  | .word => "w"
  | .double => "d"

def width? (t : Ty) : Option Width :=
  if t.isPointer then some .double
  else
    match t with
    | .i1 => some .byte
    | .i32 => some .word
    | _ => none

/-- Floating-point conditions; none holds if an operand is not a number. -/
inductive Condition where
  | slt | sle | seq | sne
deriving DecidableEq, Repr, Inhabited

def Condition.name : Condition → String
  | .slt => "slt"
  | .sle => "sle"
  | .seq => "seq"
  | .sne => "sne"

/-- The places of a floating-point comparison: it sets its result in one of two and goes on from the
third. -/
inductive ComparePart where
  | holds | fails | done
deriving DecidableEq, Repr, Inhabited

def ComparePart.name : ComparePart → String
  | .holds => "true"
  | .fails => "false"
  | .done => "exit"

inductive Label where
  | symbol (name : String)
  | block (func block : String)
  | leave (func : String)
  | compare (func : String) (part : ComparePart) (number : Nat)
deriving DecidableEq, Repr, Inhabited

def Label.text : Label → String
  | .symbol x => x
  | .block f b => "." ++ f ++ "_" ++ b
  | .leave f => "." ++ f ++ "_exit"
  | .compare f part n => "." ++ f ++ "_fcmp_" ++ part.name ++ toString n

inductive Inst where
  | addiW (rd rs : Reg) (imm : Int)
  | addiD (rd rs : Reg) (imm : Int)
  | addD (rd rs rt : Reg)
  | subD (rd rs rt : Reg)
  | arithW (op : Arith) (rd rs rt : Reg)
  | slt (rd rs rt : Reg)
  | or (rd rs rt : Reg)
  | xori (rd rs : Reg) (imm : Int)
  | ori (rd rs : Reg) (imm : Int)
  | lu12iW (rd : Reg) (imm : Int)
  | lu32iD (rd : Reg) (imm : Int)
  | lu52iD (rd rs : Reg) (imm : Int)
  | lowBitW (rd rs : Reg)
  | lowBitD (rd rs : Reg)
  | ld (w : Width) (rd base : Reg) (imm : Int)
  | st (w : Width) (rs base : Reg) (imm : Int)
  | fld (fd : FReg) (base : Reg) (imm : Int)
  | fst (fs : FReg) (base : Reg) (imm : Int)
  | arithS (op : Arith) (fd fs ft : FReg)
  | fcmp (c : Condition) (fs ft : FReg)
  | toFloat (fd : FReg) (rs : Reg)
  | toGeneral (rd : Reg) (fs : FReg)
  | truncate (fd fs : FReg)
  | convert (fd fs : FReg)
  | la (rd : Reg) (symbol : String)
  | b (target : Label)
  | bnez (rs : Reg) (target : Label)
  | bceqz (target : Label)
  | bl (symbol : String)
  | jr (rs : Reg)
deriving DecidableEq, Repr, Inhabited

namespace Inst

def arithName : Arith → String
  | .add => "add"
  | .sub => "sub"
  | .mul => "mul"
  | .div => "div"

def text : Inst → String
  | .addiW d s n => s!"addi.w {d.text}, {s.text}, {n}"
  | .addiD d s n => s!"addi.d {d.text}, {s.text}, {n}"
  | .addD d s t => s!"add.d {d.text}, {s.text}, {t.text}"
  | .subD d s t => s!"sub.d {d.text}, {s.text}, {t.text}"
  | .arithW op d s t => s!"{arithName op}.w {d.text}, {s.text}, {t.text}"
  | .slt d s t => s!"slt {d.text}, {s.text}, {t.text}"
  | .or d s t => s!"or {d.text}, {s.text}, {t.text}"
  | .xori d s n => s!"xori {d.text}, {s.text}, {n}"
  | .ori d s n => s!"ori {d.text}, {s.text}, {n}"
  | .lu12iW d n => s!"lu12i.w {d.text}, {n}"
  | .lu32iD d n => s!"lu32i.d {d.text}, {n}"
  | .lu52iD d s n => s!"lu52i.d {d.text}, {s.text}, {n}"
  | .lowBitW d s => s!"bstrpick.w {d.text}, {s.text}, 0, 0"
  | .lowBitD d s => s!"bstrpick.d {d.text}, {s.text}, 0, 0"
  | .ld w d base n => s!"ld.{w.suffix} {d.text}, {base.text}, {n}"
  | .st w s base n => s!"st.{w.suffix} {s.text}, {base.text}, {n}"
  | .fld d base n => s!"fld.s {d.text}, {base.text}, {n}"
  | .fst s base n => s!"fst.s {s.text}, {base.text}, {n}"
  | .arithS op d s t => s!"f{arithName op}.s {d.text}, {s.text}, {t.text}"
  | .fcmp c s t => s!"fcmp.{c.name}.s $fcc0, {s.text}, {t.text}"
  | .toFloat d s => s!"movgr2fr.w {d.text}, {s.text}"
  | .toGeneral d s => s!"movfr2gr.s {d.text}, {s.text}"
  | .truncate d s => s!"ftintrz.w.s {d.text}, {s.text}"
  | .convert d s => s!"ffint.s.w {d.text}, {s.text}"
  | .la d x => s!"la.local {d.text}, {x}"
  | .b l => s!"b {l.text}"
  | .bnez s l => s!"bnez {s.text}, {l.text}"
  | .bceqz l => s!"bceqz $fcc0, {l.text}"
  | .bl x => s!"bl {x}"
  | .jr s => s!"jr {s.text}"

end Inst

inductive Directive where
  | text | bss
  | globl (symbol : String)
  | object (symbol : String)
  | function (symbol : String)
  | size (symbol : String) (bytes : Int)
  | space (bytes : Int)
deriving DecidableEq, Repr, Inhabited

def Directive.line : Directive → String
  | .text => ".text"
  | .bss => ".section .bss, \"aw\", @nobits"
  | .globl x => s!".globl {x}"
  | .object x => s!".type {x}, @object"
  | .function x => s!".type {x}, @function"
  | .size x n => s!".size {x}, {n}"
  | .space n => s!".space {n}"

inductive Line where
  | label (l : Label)
  | comment (text : String)
  | directive (d : Directive)
  | inst (i : Inst)
deriving DecidableEq, Repr, Inhabited

def Line.text : Line → String
  | .label l => l.text ++ ":\n"
  | .comment s => "# " ++ s ++ "\n"
  | .directive d => "  " ++ d.line ++ "\n"
  | .inst i => "  " ++ i.text ++ "\n"

def textOf (ls : List Line) : String := String.join (ls.map Line.text)

end CMinusF.Assembly
