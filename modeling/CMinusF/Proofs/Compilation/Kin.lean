import CMinusF.Proofs.Graph.Code
import CMinusF.Proofs.Graph.Stable

/-! The transformations leave the functions of a module, their names and their order alone. -/
namespace CMinusF
open CMinusF.Module

/-- The same functions, under the same names, have code, and the globals are as they were. -/
structure Kin (m n : Module) : Prop where
  funcs : n.funcs = m.funcs
  name : ∀ g, (n.func g).name = (m.func g).name
  declared : ∀ g, (n.func g).isDeclaration = (m.func g).isDeclaration
  globals : n.globals = m.globals
  global : n.code.global = m.code.global

namespace Kin
variable {l m n : Module}

theorem refl (m : Module) : Kin m m := ⟨rfl,fun _ => rfl,fun _ => rfl,rfl,rfl⟩

theorem trans (h : Kin l m) (h' : Kin m n) : Kin l n where
  funcs := h'.funcs.trans h.funcs
  name g := (h'.name g).trans (h.name g)
  declared g := (h'.declared g).trans (h.declared g)
  globals := h'.globals.trans h.globals
  global := h'.global.trans h.global

section
variable (m : Module)

/-- What is changed of a function is neither its name nor whether it has code. -/
theorem modifyFunc (f : FuncId) {h : Func → Func} (hname : (h (m.func f)).name = (m.func f).name)
    (hdecl : (h (m.func f)).isDeclaration = (m.func f).isDeclaration) :
    Kin m (m.modifyFunc f h) where
  funcs := rfl
  name g := by
    rw [func_modifyFunc]
    split
    · rename_i hg
      rw [hname,hg]
    · rfl
  declared g := by
    rw [func_modifyFunc]
    split
    · rename_i hg
      rw [hdecl,hg]
    · rfl
  globals := rfl
  global := rfl

theorem modifyInstr (i : InstrId) (h : Instr → Instr) : Kin m (m.modifyInstr i h) :=
  ⟨rfl,fun _ => rfl,fun _ => rfl,rfl,rfl⟩

theorem modifyBlock (b : BlockId) (h : Block → Block) : Kin m (m.modifyBlock b h) :=
  modifyFunc m b.func rfl rfl

theorem modifyUses (v : Operand) (h : List InstrId → List InstrId) : Kin m (m.modifyUses v h) := by
  have hcode := code_modifyUses m v h
  refine ⟨congrArg Code.funcs hcode,fun g => ?_,fun g => ?_,congrArg Code.globals hcode,
    congrArg Code.global hcode⟩
  · have := congrArg (fun c : Code => (c.func g).name) hcode
    exact this
  · have := congrArg (fun c : Code => (c.func g).isDeclaration) hcode
    exact this

theorem addUse (v : Operand) (i : InstrId) : Kin m (m.addUse v i) := modifyUses m v _

theorem removeUse (v : Operand) (i : InstrId) : Kin m (m.removeUse v i) := modifyUses m v _

end


theorem foldl {α : Type} {g : Module → α → Module} (hg : ∀ m a, Kin m (g m a)) (as : List α)
    (m : Module) : Kin m (as.foldl g m) :=
  foldl_keeps (fun n a h => h.trans (hg n a)) as (refl m)

section
variable (m : Module)

theorem setOperand (i : InstrId) (k : Nat) (v : Operand) : Kin m (m.setOperand i k v) :=
  ((removeUse m _ i).trans (modifyInstr _ i _)).trans (addUse _ v i)

theorem replaceIn (i : InstrId) (old new : Operand) : Kin m (m.replaceIn i old new) := by
  refine foldl (fun n k => ?_) _ m
  split
  · exact setOperand n i k new
  · exact refl n

theorem renameIncoming (b c : BlockId) (phi : InstrId) : Kin m (m.renameIncoming b c phi) := by
  refine foldl (fun n k => ?_) _ m
  split
  · exact setOperand n phi k _
  · exact refl n

theorem insertAt (b : BlockId) (k : Nat) (i : InstrId) : Kin m (m.insertAt b k i) :=
  (modifyInstr m i _).trans (modifyBlock _ b _)

theorem append (b : BlockId) (i : InstrId) : Kin m (m.append b i) :=
  (modifyInstr m i _).trans (modifyBlock _ b _)

theorem remove (b : BlockId) (i : InstrId) : Kin m (m.remove b i) := by
  unfold Module.remove
  split
  · exact (modifyBlock m b _).trans (modifyInstr _ i _)
  · exact refl m

theorem addEdge (b c : BlockId) : Kin m (m.addEdge b c) :=
  (modifyBlock m b _).trans (modifyBlock _ c _)

theorem removeEdge (b c : BlockId) : Kin m (m.removeEdge b c) :=
  (modifyBlock m b _).trans (modifyBlock _ c _)

theorem addIncoming (phi : InstrId) (v : Operand) (b : BlockId) : Kin m (m.addIncoming phi v b) :=
  ((modifyInstr m phi _).trans (addUse _ v phi)).trans (addUse _ (.block b) phi)

theorem removeIncoming (phi : InstrId) (b : BlockId) : Kin m (m.removeIncoming phi b) := by
  unfold Module.removeIncoming
  split
  · exact refl m
  · exact ((removeUse m _ phi).trans (removeUse _ (.block b) phi)).trans (modifyInstr _ phi _)

theorem makeInstr (f : FuncId) (op : Opcode) (t : Ty) (object : Option Ty) (vs : List Operand) :
    Kin m (m.makeInstr f op t object vs).1 := by
  unfold Module.makeInstr
  extract_lets i number n k
  have hn : Kin m n := by
    unfold n
    split
    · exact refl m
    · exact modifyFunc m f rfl rfl
  have hk : Kin n k := ⟨rfl,fun _ => rfl,fun _ => rfl,rfl,rfl⟩
  exact (hn.trans hk).trans (foldl (fun l v => addUse l v i) vs k)

theorem newPhi (b : BlockId) (t : Ty) : Kin m (m.newPhi b t).1 :=
  (makeInstr m b.func .phi t none []).trans (insertAt _ b _ _)

theorem br (b c : BlockId) : Kin m (m.br b c).1 :=
  ((makeInstr m b.func .br .void none [.block c]).trans (append _ b _)).trans (addEdge _ b c)

theorem moveBefore (i j : InstrId) : Kin m (m.moveBefore i j) := by
  unfold Module.moveBefore
  extract_lets k
  have hk : Kin m k := by
    unfold k
    split
    · exact remove m _ i
    · exact refl m
  split
  · exact hk.trans (insertAt _ _ _ i)
  · exact hk

theorem erase (i : InstrId) : Kin m (m.erase i) := by
  unfold Module.erase
  extract_lets m1 m2 m3
  have h1 : Kin m m1 := by
    unfold m1
    split
    · exact foldl (fun n c => removeEdge n _ c) _ m
    · exact refl m
  have h3 : Kin m m3 := (h1.trans (foldl (fun n v => removeUse n v i) _ m1)).trans
    (modifyInstr _ i _)
  split
  · exact h3.trans (remove _ _ i)
  · exact h3

theorem addBlockBefore {f : FuncId} (hf : (m.func f).isDeclaration = false) (hint : String)
    (b : BlockId) :
    Kin m (m.addBlockBefore f hint b).1 := by
  rw [addBlockBefore_fst]
  obtain ⟨-,-,hglobal,hfuncs,hglobals⟩ := tables_seat m f hint fun l =>
    l.take ((m.func f).layout.idxOf b) ++ ⟨f,(m.func f).blocks.size⟩ :: l.drop
      ((m.func f).layout.idxOf b)
  refine ⟨hfuncs,fun g => (signature_seat m f hint _ g).1,fun g => ?_,hglobals,?_⟩
  · rw [Func.isDeclaration,layout_seat]
    split
    · rename_i hg
      rw [hg,hf]
      simp
    · rfl
  · simp only [code,Module.global,hglobal]

end


theorem redirect {b c d : BlockId} (h : m.redirect b c d = .ok n) : Kin m n := by
  unfold Module.redirect at h
  split at h
  · cases h
  · split at h
    · obtain rfl := Except.ok.inj h
      exact ((replaceIn m _ _ _).trans (removeEdge _ b c)).trans (addEdge _ b d)
    · cases h

theorem stable (m : Module) {f : FuncId} (hf : (m.func f).isDeclaration = false) :
    Stable f (Kin m) where
  addLiteral _ _ h := h.trans ⟨rfl,fun _ => rfl,fun _ => rfl,rfl,rfl⟩
  newPhi _ b t h := h.trans (newPhi _ b t)
  addIncoming _ phi v b _ h := h.trans (addIncoming _ phi v b)
  feed _ phi v b h := h.trans (addIncoming _ phi v b)
  removeIncoming _ phi b _ h := h.trans (removeIncoming _ phi b)
  renameIncoming _ b c phi _ h := h.trans (renameIncoming _ b c phi)
  replaceUses _ old new h := h.trans (foldl (fun n u => replaceIn n u old new) _ _)
  erase _ i h := h.trans (erase _ i)
  moveBefore _ i j _ h := h.trans (moveBefore _ i j)
  addBlockBefore _ hint b h := h.trans (addBlockBefore _ ((h.declared f).trans hf) hint b)
  br _ b c _ h := h.trans (br _ b c)
  redirect _ _ _ _ _ hn h := h.trans (redirect hn)

end Kin
end CMinusF
