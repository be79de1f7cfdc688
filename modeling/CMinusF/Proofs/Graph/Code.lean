import CMinusF.Graph.Build
import CMinusF.Flow.Dominance
import Mathlib.Order.Nat

/-! A module without its use lists: all that the machine can see. Every operation on the graph acts
on this view by itself, so that what it does to the code and what it does to the use lists are
separate questions. -/
namespace CMinusF
open List

def Instr.bare (x : Instr) : Instr := { x with uses := [] }
def Block.bare (x : Block) : Block := { x with uses := [] }
def Global.bare (x : Global) : Global := { x with uses := [] }
def Func.bare (x : Func) : Func := { x with blocks := .empty, argUses := .empty, uses := [] }

@[ext] structure Code where
  funcs : List FuncId
  globals : List GlobalId
  global : GlobalId → Global
  instr : InstrId → Instr
  block : BlockId → Block
  func : FuncId → Func
  literal : LiteralId → Constant

def Module.code (m : Module) : Code where
  funcs := m.funcs
  globals := m.globals
  global g := (m.global g).bare
  instr i := (m.instr i).bare
  block b := (m.block b).bare
  func f := (m.func f).bare
  literal c := (m.literal c).value

def Code.contents (c : Code) (g : GlobalId) : Ty := (c.global g).contents

/-- What no edit of a function touches. -/
def Code.context (c : Code) :
    (LiteralId → Constant) × (GlobalId → Global) × List FuncId × List GlobalId :=
  (c.literal,c.global,c.funcs,c.globals)

structure Module.SameContext (m n : Module) : Prop where
  context : n.code.context = m.code.context

namespace Module.SameContext
variable {m n : Module} (h : SameContext m n)
include h

theorem literal : n.code.literal = m.code.literal := congrArg (·.1) h.context

theorem global : n.code.global = m.code.global := congrArg (·.2.1) h.context

theorem funcs : n.funcs = m.funcs := congrArg (·.2.2.1) h.context

theorem globals : n.globals = m.globals := congrArg (·.2.2.2) h.context

end Module.SameContext

namespace Code

def modifyInstr (c : Code) (i : InstrId) (h : Instr → Instr) : Code :=
  { c with instr := fun j => if i = j then h (c.instr i) else c.instr j }

def modifyBlock (c : Code) (b : BlockId) (h : Block → Block) : Code :=
  { c with block := fun d => if b = d then h (c.block b) else c.block d }

def modifyFunc (c : Code) (f : FuncId) (h : Func → Func) : Code :=
  { c with func := fun g => if f = g then h (c.func f) else c.func g }

def mapOperands (c : Code) (h : Operand → Operand) : Code :=
  { c with instr := fun i => { c.instr i with operands := (c.instr i).operands.map h } }

def setOperands (c : Code) (i : InstrId) (l : List Operand) : Code :=
  c.modifyInstr i fun x => { x with operands := l }

def setInstr (c : Code) (i : InstrId) (x : Instr) : Code :=
  { c with instr := fun j => if j = i then x else c.instr j }

def setLiteral (c : Code) (l : LiteralId) (v : Constant) : Code :=
  { c with literal := fun k => if k = l then v else c.literal k }

@[simp] theorem modifyInstr_id (c : Code) (i : InstrId) : c.modifyInstr i id = c :=
  Code.ext rfl rfl rfl (funext fun j => by simp only [modifyInstr]; split <;> simp_all) rfl rfl rfl

@[simp] theorem operands_setOperands (c : Code) (i : InstrId) (l : List Operand) :
    ((c.setOperands i l).instr i).operands = l := by simp [setOperands,modifyInstr]

@[simp] theorem setOperands_self (c : Code) (i : InstrId) :
    c.setOperands i (c.instr i).operands = c :=
  Code.ext rfl rfl rfl
    (funext fun j => by simp only [setOperands,modifyInstr]; split <;> simp_all) rfl rfl rfl

@[simp] theorem setOperands_setOperands (c : Code) (i : InstrId) (l l' : List Operand) :
    (c.setOperands i l).setOperands i l' = c.setOperands i l' :=
  Code.ext rfl rfl rfl
    (funext fun j => by simp only [setOperands,modifyInstr]; split <;> simp_all) rfl rfl rfl

theorem instr_setOperands (c : Code) (i : InstrId) (l : List Operand) (j : InstrId) :
    (c.setOperands i l).instr j = { c.instr j with operands := if i = j then l
      else (c.instr j).operands } := by
  simp only [setOperands,modifyInstr]
  split <;> simp_all

@[simp] theorem modifyBlock_id (c : Code) (b : BlockId) : c.modifyBlock b id = c :=
  Code.ext rfl rfl rfl rfl (funext fun d => by simp only [modifyBlock]; split <;> simp_all) rfl rfl

@[simp] theorem modifyFunc_id (c : Code) (f : FuncId) : c.modifyFunc f id = c :=
  Code.ext rfl rfl rfl rfl rfl (funext fun g => by simp only [modifyFunc]; split <;> simp_all) rfl

end Code

structure IsInstr (m : Module) (i : InstrId) (op : Opcode) (t : Ty) (vs : List Operand) : Prop where
  op : (m.instr i).op = op
  type : (m.instr i).type = t
  operands : m.operands i = vs

namespace Module

/-! What the code tells. -/
section
variable {m n : Module} {i : InstrId} {f : FuncId}

theorem op_of_code (h : n.code.instr i = m.code.instr i) : (n.instr i).op = (m.instr i).op :=
  (congrArg Instr.op h :)

theorem parent_of_code (h : n.code.instr i = m.code.instr i) :
    (n.instr i).parent = (m.instr i).parent :=
  (congrArg Instr.parent h :)

/-- An instruction stays what it is and where it is; only its operands may change. -/
structure Lasts (m n : Module) (i : InstrId) : Prop where
  op : (n.instr i).op = (m.instr i).op
  type : (n.instr i).type = (m.instr i).type
  object : (n.instr i).object = (m.instr i).object
  parent : (n.instr i).parent = (m.instr i).parent

theorem lasts_of_code {vs : List Operand}
    (h : n.code.instr i = { m.code.instr i with operands := vs }) : Lasts m n i :=
  ⟨(congrArg Instr.op h :),(congrArg Instr.type h :),(congrArg Instr.object h :),
    (congrArg Instr.parent h :)⟩

theorem lists_of_code {xs : List InstrId} {b : BlockId}
    (h : n.code.block b = { m.code.block b with instrs := xs }) :
    (n.block b).instrs = xs ∧ n.succs b = m.succs b ∧ n.preds b = m.preds b :=
  ⟨(congrArg Block.instrs h :),(congrArg Block.succs h :),(congrArg Block.preds h :)⟩

theorem layout_of_code (h : n.code.func f = m.code.func f) :
    (n.func f).layout = (m.func f).layout := (congrArg Func.layout h :)

theorem signature_of_code (h : n.code.func f = m.code.func f) :
    (n.func f).name = (m.func f).name ∧ (n.func f).result = (m.func f).result ∧
    (n.func f).params = (m.func f).params :=
  ⟨(congrArg Func.name h :),(congrArg Func.result h :),(congrArg Func.params h :)⟩

end

variable (m : Module)

theorem func_modifyBlock (b : BlockId) (h : Block → Block) (f : FuncId) :
    (m.modifyBlock b h).func f =
      if b.func = f then { m.func f with blocks := (m.func f).blocks.modify b.number h }
        else m.func f := by
  rw [modifyBlock,func_modifyFunc]
  split
  · rename_i hf
    rw [hf]
  · rfl

/-! What the operations do to the code. -/

theorem code_modifyInstr (i : InstrId) (h k : Instr → Instr) (hk : ∀ x, (h x).bare = k x.bare) :
    (m.modifyInstr i h).code = m.code.modifyInstr i k := by
  refine Code.ext rfl rfl rfl ?_ rfl rfl rfl
  funext j
  simp only [code,Code.modifyInstr,instr_modifyInstr]
  split
  · exact hk _
  · rfl

theorem code_modifyBlock (b : BlockId) (h k : Block → Block) (hk : ∀ x, (h x).bare = k x.bare) :
    (m.modifyBlock b h).code = m.code.modifyBlock b k := by
  refine Code.ext rfl rfl rfl rfl ?_ ?_ rfl
  · funext d
    simp only [code,Code.modifyBlock,block_modifyBlock]
    split
    · exact hk _
    · rfl
  · funext f
    simp only [code,func_modifyBlock]
    split <;> rfl

theorem code_modifyFunc (f : FuncId) (h k : Func → Func) (hk : ∀ x, (h x).bare = k x.bare)
    (hb : ∀ x, (h x).blocks = x.blocks) : (m.modifyFunc f h).code = m.code.modifyFunc f k := by
  refine Code.ext rfl rfl rfl rfl ?_ ?_ rfl
  · funext d
    simp only [code,Code.modifyFunc,block,func_modifyFunc]
    split
    · rename_i hf
      rw [hb,hf]
    · rfl
  · funext g
    simp only [code,Code.modifyFunc,func_modifyFunc]
    split
    · exact hk _
    · rfl

@[simp] theorem code_modifyUses (v : Operand) (h : List InstrId → List InstrId) :
    (m.modifyUses v h).code = m.code := by
  cases v with
  | literal c =>
    refine Code.ext rfl rfl rfl rfl rfl rfl ?_
    funext d
    simp only [modifyUses,modifyLiteral,code,literal,Table.get_modify]
    split
    · rename_i hc
      rw [hc]
    · rfl
  | global g =>
    refine Code.ext rfl rfl ?_ rfl rfl rfl rfl
    funext d
    simp only [modifyUses,modifyGlobal,code,global,Table.get_modify]
    split
    · rename_i hc
      rw [hc]
      rfl
    · rfl
  | arg f i =>
    rw [modifyUses,code_modifyFunc m f (fun x => { x with argUses := x.argUses.modify i h }) id]
    all_goals simp [Func.bare]
  | instr i =>
    rw [modifyUses,code_modifyInstr m i (fun x => { x with uses := h x.uses }) id]
    all_goals simp [Instr.bare]
  | block b =>
    rw [modifyUses,code_modifyBlock m b (fun x => { x with uses := h x.uses }) id]
    all_goals simp [Block.bare]
  | func f =>
    rw [modifyUses,code_modifyFunc m f (fun x => { x with uses := h x.uses }) id]
    all_goals simp [Func.bare]
  | hole => rfl

@[simp] theorem code_addUse (v : Operand) (i : InstrId) : (m.addUse v i).code = m.code :=
  code_modifyUses ..
@[simp] theorem code_removeUse (v : Operand) (i : InstrId) : (m.removeUse v i).code = m.code :=
  code_modifyUses ..

theorem op_eq_code (i : InstrId) : (m.instr i).op = (m.code.instr i).op := rfl

theorem parent_eq_code (i : InstrId) : (m.instr i).parent = (m.code.instr i).parent := rfl

theorem operands_eq_code (i : InstrId) : m.operands i = (m.code.instr i).operands := rfl

theorem instrs_eq_code (b : BlockId) : (m.block b).instrs = (m.code.block b).instrs := rfl

theorem code_setOperand (i : InstrId) (n : Nat) (v : Operand) :
    (m.setOperand i n v).code = m.code.setOperands i ((m.operands i).set n v) := by
  have h := code_modifyInstr (m.removeUse (m.operand i n) i) i
    (fun x => { x with operands := x.operands.set n v })
    (fun x => { x with operands := x.operands.set n v }) fun _ => rfl
  rw [setOperand,code_addUse,h,code_removeUse]
  rfl

end Module

def Operand.replace (old new v : Operand) : Operand := if v = old then new else v

namespace Module
variable (m : Module)

theorem code_replaceIn (i : InstrId) (old new : Operand) :
    (m.replaceIn i old new).code = m.code.setOperands i
      ((m.operands i).map (Operand.replace old new)) := by
  -- the slots before the one in turn have been looked at
  have key : ∀ n ≤ (m.operands i).length, ((range n).foldl
      (fun m n => if m.operand i n = old then m.setOperand i n new else m) m).code =
      m.code.setOperands i
        (((m.operands i).take n).map (Operand.replace old new) ++ (m.operands i).drop n) := by
    intro n hn
    induction n with
    | zero => simp [operands_eq_code]
    | succ n ih =>
      have ih := ih (by omega)
      rw [range_succ,foldl_append,foldl_cons,foldl_nil]
      generalize (range n).foldl _ m = m' at ih ⊢
      have ho : m'.operands i = ((m.operands i).take n).map (Operand.replace old new) ++
          (m.operands i).drop n := by
        rw [operands_eq_code,ih,Code.operands_setOperands]
      have hlen : (((m.operands i).take n).map (Operand.replace old new)).length = n := by
        simp
        omega
      have hdrop : (m.operands i).drop n = (m.operands i)[n] :: (m.operands i).drop (n + 1) :=
        drop_eq_getElem_cons (by omega)
      have htake : (m.operands i).take (n + 1) = (m.operands i).take n ++ [(m.operands i)[n]] := by
        rw [take_add_one,getElem?_eq_getElem (by omega)]
        rfl
      have hslot : m'.operand i n = (m.operands i)[n] := by
        rw [operand,ho,getD_eq_getElem?_getD,getElem?_append_right (by omega),hlen,hdrop]
        simp only [Nat.sub_self,getElem?_cons_zero,Option.getD_some]
      rw [hslot,htake]
      split
      · rename_i heq
        rw [code_setOperand,ih,Code.setOperands_setOperands,ho,
          set_append_right _ _ (by omega),hlen,hdrop]
        simp [Operand.replace,heq]
      · rename_i hne
        rw [ih,hdrop,map_append,append_assoc]
        simp only [map_cons,map_nil,Operand.replace,hne,↓reduceIte,singleton_append]
  have := key _ (Nat.le_refl _)
  rw [take_length,drop_length,append_nil] at this
  exact this

end Module
end CMinusF
