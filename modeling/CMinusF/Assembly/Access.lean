import CMinusF.Assembly.Frame
import CMinusF.Assembly.Immediate

/-! Operands and results: loading a value from its slot and storing it there. -/
namespace CMinusF.Assembly
open Numeric

/-- An access at an offset from the frame pointer, by way of `scratch` if the offset is a large one.
-/
def frameAccess (access : Reg → Int → Inst) (off : Int) (scratch : Reg) : List Inst :=
  if fitsImm off then [access .fp off]
  else load64 off scratch ++ [.addD scratch .fp scratch,access scratch 0]

def generalWidth (t : Ty) : Except Cause Width :=
  match width? t with
  | some w => .ok w
  | none => .error (.unsupported (.generalRegister t.text))

def loadSlot (off : Int) (t : Ty) (rd : Reg) : Except Cause (List Inst) := do
  let w ← generalWidth t
  return frameAccess (fun base n => .ld w rd base n) off rd

def storeSlot (off : Int) (t : Ty) (rs : Reg) : Except Cause (List Inst) := do
  let w ← generalWidth t
  return frameAccess (fun base n => .st w rs base n) off .t8

def loadFloatSlot (off : Int) (fd : FReg) : List Inst :=
  frameAccess (fun base n => .fld fd base n) off .t8

def storeFloatSlot (off : Int) (fs : FReg) : List Inst :=
  frameAccess (fun base n => .fst fs base n) off .t8

structure Scope where
  module : Module
  frame : Frame

namespace Scope

def func (s : Scope) : Func := s.module.func s.frame.func

def slot (s : Scope) (v : Operand) : Except Cause Int :=
  match s.frame.offset? v with
  | some off => .ok off
  | none => .error (.malformed (.noSlot (s.module.refText v)))

/-! Operands and results. -/

def load (s : Scope) (v : Operand) (rd : Reg) : Except Cause (List Inst) :=
  let fromSlot := do loadSlot (← s.slot v) (s.module.typeOf v) rd
  match v with
  | .literal c =>
    match (s.module.literal c).value with
    | .int n => .ok (loadImm (wrap32 n) rd)
    | .undef _ => .ok [.addiW rd .zero 0]
    | .float _ => fromSlot
  | .global g => .ok [.la rd (s.module.global g).name]
  | _ => fromSlot

def store (s : Scope) (v : Operand) (rs : Reg) : Except Cause (List Inst) := do
  storeSlot (← s.slot v) (s.module.typeOf v) rs

def loadFloat (s : Scope) (v : Operand) (fd : FReg) : Except Cause (List Inst) :=
  let fromSlot : Except Cause (List Inst) := do
    if !(s.module.typeOf v).isFloat then .error (.unsupported (.notFloat (s.module.refText v)))
    else return loadFloatSlot (← s.slot v) fd
  match v with
  | .literal c =>
    match (s.module.literal c).value with
    | .float x => .ok (load32 (wrap32 x.bits.toNat) .t8 ++ [.toFloat fd .t8])
    | .undef _ => .ok [.toFloat fd .zero]
    | .int _ => fromSlot
  | _ => fromSlot

def storeFloat (s : Scope) (v : Operand) (fs : FReg) : Except Cause (List Inst) := do
  return storeFloatSlot (← s.slot v) fs

end Scope
end CMinusF.Assembly
