import CMinusF.Proofs.Graph.Redirect
import CMinusF.Proofs.Graph.Stable

/-! Use lists mirror operand slots after any sequence of operations, transformations included. -/
namespace CMinusF
open CMinusF.Module

namespace Module.Mirror
variable {m n : Module}

/-! Operations on the graph. -/

variable (h : m.Mirror)
include h

theorem addBlockBefore (f : FuncId) (hint : String) (b : BlockId) :
    (m.addBlockBefore f hint b).1.Mirror := by
  rw [addBlockBefore_fst]
  exact h.seat f hint _

theorem newPhi (b : BlockId) (t : Ty) : (m.newPhi b t).1.Mirror :=
  (h.makeInstr b.func .phi t none []).insertAt b _ _

theorem br (b c : BlockId) : (m.br b c).1.Mirror := (h.emit b .br .void [.block c]).addEdge b c

theorem condBr (b : BlockId) (v : Operand) (c d : BlockId) : (m.condBr b v c d).1.Mirror :=
  ((h.emit b .br .void [v,.block c,.block d]).addEdge b c).addEdge b d

theorem replaceUses (old new : Operand) : (m.replaceUses old new).Mirror :=
  foldl_keeps (fun _ u h => h.replaceIn u old new) _ h

theorem redirect {b c d : BlockId} (hn : m.redirect b c d = .ok n) : n.Mirror := by
  unfold Module.redirect at hn
  split at hn
  · cases hn
  · split at hn
    · obtain rfl := Except.ok.inj hn
      exact ((h.replaceIn _ _ _).removeEdge b c).addEdge b d
    · cases hn

theorem detach (i : InstrId) : (m.detach i).Mirror := by
  unfold Module.detach
  split
  · exact h.remove _ i
  · exact h

theorem moveBefore (i j : InstrId) : (m.moveBefore i j).Mirror := by
  rw [moveBefore_eq]
  split
  · exact (h.detach i).insertAt _ _ i
  · exact h.detach i

theorem eraseAny (i : InstrId) : (m.erase i).Mirror := by
  unfold Module.erase
  extract_lets m1 m2 m3
  have h1 : m1.Mirror := by
    unfold m1
    split
    · exact foldl_keeps (fun _ c h => h.removeEdge _ c) _ h
    · exact h
  have h3 : m3.Mirror := h1.dropOperands i
  split
  · exact h3.remove _ i
  · exact h3

theorem renameIncoming (b c : BlockId) (phi : InstrId) : (m.renameIncoming b c phi).Mirror := by
  -- a slot that holds a block is there
  refine foldl_keeps (fun n k hn => ?_) _ h
  split
  · rename_i hk
    refine hn.setOperand (Nat.not_le.mp fun hle => ?_) _
    rw [operand,List.getD_eq_getElem?_getD,List.getElem?_eq_none hle] at hk
    cases hk.2
  · exact hn

end Module.Mirror

theorem stable_mirror (f : FuncId) : Stable f Mirror where
  addLiteral _ c h := h.addLiteral c
  newPhi _ b t h := h.newPhi b t
  addIncoming _ phi v b _ h := h.addIncoming phi v b
  feed _ phi v b h := h.addIncoming phi v b
  removeIncoming _ phi b _ h := h.removeIncoming phi b
  renameIncoming _ b c phi _ h := h.renameIncoming b c phi
  replaceUses _ old new h := h.replaceUses old new
  erase _ i h := h.eraseAny i
  moveBefore _ i j _ h := h.moveBefore i j
  addBlockBefore _ hint b h := h.addBlockBefore f hint b
  br _ b c _ h := h.br b c
  redirect _ _ _ _ _ hn h := h.redirect hn

/-! Sequences of operations. -/

inductive Edits (m : Module) : Module → Prop where
  | addGlobal (name : String) (t : Ty) : Edits m (m.addGlobal name t).1
  | addFunc (name : String) (result : Ty) (params : List Ty) :
      Edits m (m.addFunc name result params).1
  | addLiteral (c : Constant) : Edits m (m.addLiteral c).1
  | addBlock (f : FuncId) (hint : String) : Edits m (m.addBlock f hint).1
  | addBlockBefore (f : FuncId) (hint : String) (b : BlockId) :
      Edits m (m.addBlockBefore f hint b).1
  | binary (b : BlockId) (op : Opcode) (v w : Operand) : Edits m (m.binary b op v w).1
  | compare (b : BlockId) (op : Opcode) (v w : Operand) : Edits m (m.compare b op v w).1
  | alloca (b : BlockId) (t : Ty) : Edits m (m.alloca b t).1
  | allocaAtEntry (f : FuncId) (t : Ty) : Edits m (m.allocaAtEntry f t).1
  | load (b : BlockId) (v : Operand) : Edits m (m.load b v).1
  | store (b : BlockId) (v w : Operand) : Edits m (m.store b v w).1
  | gep (b : BlockId) (v : Operand) (vs : List Operand) : Edits m (m.gep b v vs).1
  | zext (b : BlockId) (v : Operand) : Edits m (m.zext b v).1
  | fptosi (b : BlockId) (v : Operand) : Edits m (m.fptosi b v).1
  | sitofp (b : BlockId) (v : Operand) : Edits m (m.sitofp b v).1
  | call (b : BlockId) (f : FuncId) (vs : List Operand) : Edits m (m.call b f vs).1
  | ret (b : BlockId) (v : Option Operand) : Edits m (m.ret b v).1
  | br (b c : BlockId) : Edits m (m.br b c).1
  | condBr (b : BlockId) (v : Operand) (c d : BlockId) : Edits m (m.condBr b v c d).1
  | newPhi (b : BlockId) (t : Ty) : Edits m (m.newPhi b t).1
  | addIncoming (phi : InstrId) (v : Operand) (b : BlockId) : Edits m (m.addIncoming phi v b)
  | removeIncoming (phi : InstrId) (b : BlockId) : Edits m (m.removeIncoming phi b)
  | setOperand (i : InstrId) (n : Nat) (v : Operand) : n < (m.operands i).length → v ≠ .hole →
      Edits m (m.setOperand i n v)
  | replaceUses (old new : Operand) : Edits m (m.replaceUses old new)
  | redirect (b c d : BlockId) (n : Module) : m.redirect b c d = .ok n → Edits m n
  | moveBefore (i j : InstrId) : Edits m (m.moveBefore i j)
  | remove (b : BlockId) (i : InstrId) : Edits m (m.remove b i)
  | erase (i : InstrId) : Edits m (m.erase i)
  | splitCriticalEdges (f : FuncId) : Edits m (m.splitCriticalEdges f).module
  | promote (f : FuncId) (d : Dominance) : Edits m (Promotion.run m f d).module
  | hoist (f : FuncId) (t : Forest) (p : Purity) : Edits m (Hoisting.run m f t p).module

theorem Edits.mirror (h : Edits m n) (hm : m.Mirror) : n.Mirror := by
  cases h with
  | addGlobal name t => exact hm.addGlobal name t
  | addFunc name result params => exact hm.addFunc name result params
  | addLiteral c => exact hm.addLiteral c
  | addBlock f hint => exact hm.addBlock f hint
  | addBlockBefore f hint b => exact hm.addBlockBefore f hint b
  | alloca b t => exact hm.alloca b t
  | allocaAtEntry f t => exact hm.allocaAtEntry f t
  | br b c => exact hm.br b c
  | condBr b v c d => exact hm.condBr b v c d
  | newPhi b t => exact hm.newPhi b t
  | addIncoming phi v b => exact hm.addIncoming phi v b
  | removeIncoming phi b => exact hm.removeIncoming phi b
  | setOperand i n v hn hv => exact hm.setOperand hn v
  | replaceUses old new => exact hm.replaceUses old new
  | redirect b c d n hn => exact hm.redirect hn
  | moveBefore i j => exact hm.moveBefore i j
  | remove b i => exact hm.remove b i
  | erase i => exact hm.eraseAny i
  | splitCriticalEdges f => exact (stable_mirror f).splitCriticalEdges hm
  | promote f d => exact (stable_mirror f).promotion hm d
  | hoist f t p => exact (stable_mirror f).hoisting hm t p
  | _ => exact hm.emit _ _ _ _

/-- A module that some sequence of operations makes out of an empty one. -/
inductive Built (name : String) : Module → Prop where
  | empty : Built name (.empty name)
  | edit {m n : Module} : Built name m → Edits m n → Built name n

theorem Built.mirror {name : String} (h : Built name m) : m.Mirror := by
  induction h with
  | empty => exact .empty name
  | edit _ he ih => exact he.mirror ih

/-- Replacing a value takes it out of every slot that held it and leaves the others alone. -/
theorem Module.Mirror.replaced {m : Module} (h : m.Mirror) {old new : Operand} (hold : old ≠ .hole)
    (hne : new ≠ old) :
    (m.replaceUses old new).uses old = [] ∧ ∀ i
      (n : Nat), ((m.replaceUses old new).operands i)[n]? =
      (m.operands i)[n]?.map fun v => if v = old then new else v := by
  obtain ⟨hcode,hmirror⟩ := code_replaceUses h old hold new
  have hops : ∀ i, (m.replaceUses old new).operands i =
      (m.operands i).map (Operand.replace old new) := by
    intro i
    rw [operands_eq_code,hcode]
    rfl
  refine ⟨List.eq_nil_iff_forall_not_mem.mpr fun u hu => ?_,fun i n => ?_⟩
  · rw [hmirror.mem_uses_iff hold,hops,List.mem_map] at hu
    obtain ⟨v,_,hv⟩ := hu
    unfold Operand.replace at hv
    grind
  · rw [hops,List.getElem?_map]
    rfl

/-- However a module has been made, its use lists mirror its operand slots, and replacing a value by
another one leaves no use of it and touches nothing else. -/
theorem built_mirrors {name : String} {m : Module} (h : Built name m) :
    (∀ v, v ≠ .hole → ∀ i, (m.uses v).count i = (m.operands i).count v) ∧
    ∀ old new, old ≠ .hole → new ≠ old → (m.replaceUses old new).uses old = [] ∧
      ∀ i (n : Nat), ((m.replaceUses old new).operands i)[n]? =
        (m.operands i)[n]?.map fun v => if v = old then new else v :=
  ⟨h.mirror,fun _ _ hold hne => h.mirror.replaced hold hne⟩

/-- A function whose phi takes itself in, then the sum of a constant with itself. -/
def selfFed : Module :=
  let m := (Module.empty "selfFed").addFunc "main" .void [] |>.1
  let m := m.addBlock 0 "turn" |>.1
  let m := m.addLiteral (.int 7) |>.1
  let m := m.newPhi ⟨0,0⟩ .i32 |>.1
  let m := m.binary ⟨0,0⟩ (.int .add) (.literal 0) (.literal 0) |>.1
  let m := m.addIncoming 0 (.instr 0) ⟨0,0⟩
  let m := m.setOperand 0 0 (.instr 1)
  m.br ⟨0,0⟩ ⟨0,0⟩ |>.1

theorem built_mirrors_selfFed : Built "selfFed" selfFed ∧ (selfFed.uses (.literal 0)).count 1 = 2 ∧
    (selfFed.replaceUses (.literal 0) (.instr 0)).uses (.literal 0) = [] := by
  have h : Built "selfFed" selfFed := by
    refine .edit (.edit
      (.edit (.edit (.edit (.edit (.edit (.edit .empty (.addFunc _ _ _)) (.addBlock _ _))
      (.addLiteral _))
      (.newPhi _ _)) (.binary _ _ _ _)) (.addIncoming _ _ _)) (.setOperand _ _ _ ?_ ?_)) (.br _ _)
    · decide
    · decide
  obtain ⟨hcount,hreplace⟩ := built_mirrors h
  refine ⟨h,?_,(hreplace _ _ (by decide) (by decide)).1⟩
  rw [hcount _ (by decide)]
  decide

end CMinusF
