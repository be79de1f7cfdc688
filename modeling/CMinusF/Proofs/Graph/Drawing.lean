import CMinusF.Proofs.Graph.EdgeLists
import CMinusF.Proofs.Graph.Stable

/-! Edge lists agree with the branches after any sequence of operations, blocks on critical edges
and preheaders included. -/
namespace CMinusF
open CMinusF.Module List

theorem rewires_charted (f : FuncId) : Rewires f Charted where
  newPhi _ b t h := h.newPhi b t
  addIncoming _ _ v b hp h := h.addIncoming hp v b
  removeIncoming _ _ b hp h := h.removeIncoming hp b
  renameIncoming _ b c _ hp h := h.renameIncoming hp b c
  moveBefore _ _ j hi h := h.moveBefore hi j
  addBlockBefore _ hint b h := h.addBlockBefore f hint b
  br _ _ c hb h := h.br hb c
  redirect _ _ _ _ _ hn h := h.redirect hn

/-! Sequences of operations. -/

/-- One operation that leaves branches to those made for them: lines are appended where no
terminator stands, what is moved or removed is no terminator, and only branches made as such, whose
conditions are values, have blocks to lead to. -/
inductive Draws (m : Module) : Module → Prop where
  | addGlobal (name : String) (t : Ty) : Draws m (m.addGlobal name t).1
  | addFunc (name : String) (result : Ty) (params : List Ty) :
      Draws m (m.addFunc name result params).1
  | addLiteral (c : Constant) : Draws m (m.addLiteral c).1
  | addBlock (f : FuncId) (hint : String) : Draws m (m.addBlock f hint).1
  | addBlockBefore (f : FuncId) (hint : String) (b : BlockId) :
      Draws m (m.addBlockBefore f hint b).1
  | binary (b : BlockId) (op : Opcode) (v w : Operand) : m.isTerminated b = false → op ≠ .br →
      Draws m (m.binary b op v w).1
  | compare (b : BlockId) (op : Opcode) (v w : Operand) : m.isTerminated b = false → op ≠ .br →
      Draws m (m.compare b op v w).1
  | alloca (b : BlockId) (t : Ty) : m.isTerminated b = false → Draws m (m.alloca b t).1
  | allocaAtEntry (f : FuncId) (t : Ty) : Draws m (m.allocaAtEntry f t).1
  | load (b : BlockId) (v : Operand) : m.isTerminated b = false → Draws m (m.load b v).1
  | store (b : BlockId) (v w : Operand) : m.isTerminated b = false → Draws m (m.store b v w).1
  | gep (b : BlockId) (v : Operand) (vs : List Operand) : m.isTerminated b = false →
      Draws m (m.gep b v vs).1
  | zext (b : BlockId) (v : Operand) : m.isTerminated b = false → Draws m (m.zext b v).1
  | fptosi (b : BlockId) (v : Operand) : m.isTerminated b = false → Draws m (m.fptosi b v).1
  | sitofp (b : BlockId) (v : Operand) : m.isTerminated b = false → Draws m (m.sitofp b v).1
  | call (b : BlockId) (f : FuncId) (vs : List Operand) : m.isTerminated b = false →
      Draws m (m.call b f vs).1
  | ret (b : BlockId) (v : Option Operand) : m.isTerminated b = false → Draws m (m.ret b v).1
  | br (b c : BlockId) : m.isTerminated b = false → Draws m (m.br b c).1
  | condBr (b : BlockId) (v : Operand) (c d : BlockId) : m.isTerminated b = false →
      (∀ o, v ≠ .block o) → Draws m (m.condBr b v c d).1
  | newPhi (b : BlockId) (t : Ty) : Draws m (m.newPhi b t).1
  | addIncoming (p : InstrId) (v : Operand) (b : BlockId) : (m.instr p).op ≠ .br →
      Draws m (m.addIncoming p v b)
  | removeIncoming (p : InstrId) (b : BlockId) : (m.instr p).op ≠ .br →
      Draws m (m.removeIncoming p b)
  | setOperand (i : InstrId) (n : Nat) (v : Operand) :
      ((m.instr i).op = .br → (∀ o, m.operand i n ≠ .block o) ∧ ∀ o, v ≠ .block o) →
        Draws m (m.setOperand i n v)
  | redirect (b c d : BlockId) (n : Module) : m.redirect b c d = .ok n → Draws m n
  | remove (b : BlockId) (i : InstrId) : (m.instr i).op.isTerminator = false →
      Draws m (m.remove b i)
  | moveBefore (i j : InstrId) : (m.instr i).op.isTerminator = false → Draws m (m.moveBefore i j)
  | erase (i : InstrId) : Draws m (m.erase i)
  | splitCriticalEdges (f : FuncId) : Draws m (m.splitCriticalEdges f).module
  | makePreheader (f : FuncId) (s : Hoisting.State) (k : Nat) :
      s.module = m → Draws m (Hoisting.makePreheader f s k).1.module
  | hoist (f : FuncId) (t : Forest) (p : Purity) : Draws m (Hoisting.run m f t p).module

theorem Draws.charted {m n : Module} (h : Draws m n) (hm : m.Charted) : n.Charted := by
  cases h with
  | addGlobal name t => exact hm.addGlobal name t
  | addFunc name result params => exact hm.addFunc name result params
  | addLiteral c => exact hm.addLiteral c
  | addBlock f hint => exact hm.addBlock f hint
  | addBlockBefore f hint b => exact hm.addBlockBefore f hint b
  | binary b op v w hb hop => exact hm.emit hb hop _ _
  | compare b op v w hb hop => exact hm.emit hb hop _ _
  | alloca b t hb => exact hm.alloca hb t
  | allocaAtEntry f t => exact hm.allocaAtEntry f t
  | load b v hb | store b v w hb | gep b v vs hb | zext b v hb | fptosi b v hb | sitofp b v hb
  | call b f vs hb | ret b v hb =>
    exact hm.emit hb (by decide) _ _
  | br b c hb => exact hm.br hb c
  | condBr b v c d hb hv => exact hm.condBr hb hv c d
  | newPhi b t => exact hm.newPhi b t
  | addIncoming p v b hp => exact hm.addIncoming hp v b
  | removeIncoming p b hp => exact hm.removeIncoming hp b
  | setOperand i n v hv => exact hm.setOperand hv
  | redirect b c d n hn => exact hm.redirect hn
  | remove b i hi => exact hm.remove hi b
  | moveBefore i j hi => exact hm.moveBefore hi j
  | erase i => exact hm.erase i
  | splitCriticalEdges f => exact (rewires_charted f).splitCriticalEdges hm
  | makePreheader f s k hs => exact ((rewires_charted f).makePreheader (hs ▸ hm) k).1
  | hoist f t p => exact (rewires_charted f).hoisting hm t p

/-- A module that such operations make out of an empty one. -/
inductive Drawn (name : String) : Module → Prop where
  | empty : Drawn name (.empty name)
  | draw {m n : Module} : Drawn name m → Draws m n → Drawn name n

theorem Drawn.charted {name : String} {m : Module} (h : Drawn name m) : m.Charted := by
  induction h with
  | empty => exact .empty name
  | draw _ hd ih => exact hd.charted ih

/-! A failed attempt to send a branch elsewhere. -/

namespace Module

/-- Goes over the slots of an instruction, puts `new` where `old` is, and tells whether it was
anywhere. -/
def swapSlots (m : Module) (i : InstrId) (old new : Operand) (n : Nat) : Module × Bool :=
  (List.range n).foldl (fun s k => if s.1.operand i k = old then (s.1.setOperand i k new,true)
    else s) (m,false)

/-- Sends a branch elsewhere slot by slot; what has been done by then stays, also if it was in vain.
-/
def redirectSlots (m : Module) (pred source target : BlockId) : Module × Option Defect :=
  match (m.terminator? pred).filter fun t => (m.instr t).op = .br with
  | none => (m,some (.noBranch (m.block pred).name))
  | some t =>
    match m.swapSlots t (.block source) (.block target) (m.operands t).length with
    | (n,false) => (n,some (.notBranchingTo (n.block pred).name (n.block source).name))
    | (n,true) => ((n.removeEdge pred source).addEdge pred target,none)

theorem take_operands (m : Module) (i : InstrId) {n : Nat} (hn : n < (m.operands i).length) :
    (m.operands i).take (n + 1) = (m.operands i).take n ++ [m.operand i n] := by
  rw [take_add_one,operand,getD_eq_getElem?_getD,getElem?_eq_getElem hn]
  rfl

theorem foldl_slots_of_notMem (m : Module) {i : InstrId} {old : Operand} (new : Operand) {n : Nat}
    (hn : n ≤ (m.operands i).length) (hold : old ∉ (m.operands i).take n) :
    (List.range n).foldl (fun m k => if m.operand i k = old then m.setOperand i k new
      else m) m = m := by
  induction n with
  | zero => rfl
  | succ n ih =>
    rw [take_operands m i hn,mem_append,mem_singleton,not_or] at hold
    rw [range_succ,foldl_append,ih (by omega) hold.1]
    exact if_neg (Ne.symm hold.2)

theorem swapSlots_eq (m : Module) (i : InstrId) (old new : Operand) {n : Nat}
    (hn : n ≤ (m.operands i).length) :
    m.swapSlots i old new n =
      ((List.range n).foldl (fun m k => if m.operand i k = old then m.setOperand i k new else m) m,
      decide (old ∈ (m.operands i).take n)) := by
  induction n with
  | zero => rfl
  | succ n ih =>
    have ih := ih (by omega)
    rw [swapSlots] at ih ⊢
    rw [range_succ,foldl_append,foldl_append,ih,take_operands m i hn]
    by_cases hold : old ∈ (m.operands i).take n
    · simp only [hold,foldl_cons,mem_append]
      split <;> rfl
    · rw [foldl_slots_of_notMem m new (by omega) hold]
      by_cases heq : m.operand i n = old
      · simp [heq]
      · simp [heq,Ne.symm heq]

theorem redirectSlots_eq (m : Module) (pred source target : BlockId) :
    m.redirectSlots pred source target =
    match m.redirect pred source target with
    | .ok n => (n,none)
    | .error d => (m,some d) := by
  unfold redirectSlots redirect
  cases (m.terminator? pred).filter fun t => (m.instr t).op = .br with
  | none => rfl
  | some t =>
    dsimp only
    rw [swapSlots_eq m t _ _ (Nat.le_refl _),take_length]
    by_cases hmem : Operand.block source ∈ m.operands t
    · rw [decide_eq_true hmem,if_pos hmem]
      rfl
    · rw [decide_eq_false hmem,if_neg hmem,
        foldl_slots_of_notMem m _ (Nat.le_refl _) (by rwa [take_length])]

end Module

/-- However a module has been drawn, a block is listed among the successors of another exactly if
that one is among its predecessors, and exactly if the other one ends in a branch that leads to it;
no list has a block twice; and sending a branch elsewhere slot by slot is what it is as a whole, and
leaves everything as it was if it fails. -/
theorem drawn_edges {name : String} {m : Module} (h : Drawn name m) :
    (∀ a b, (b ∈ m.succs a ↔ a ∈ m.preds b) ∧
      (b ∈ m.succs a ↔ ∃ t, m.terminator? a = some t ∧ b ∈ m.targets t)) ∧
    (∀ a, (m.succs a).Nodup ∧ (m.preds a).Nodup) ∧
    ∀ pred source target, (m.redirectSlots pred source target =
      match m.redirect pred source target with
      | .ok n => (n,none)
      | .error d => (m,some d)) ∧
      ∀ d, (m.redirectSlots pred source target).2 = some d →
        (m.redirectSlots pred source target).1 = m := by
  have hm := h.charted
  refine ⟨fun a b => ⟨(hm.preds a b).symm,(hm.succs a b).trans hm.branches_iff⟩,
    fun a => ⟨hm.succs_nodup a,hm.preds_nodup a⟩,
    fun pred source target => ⟨redirectSlots_eq m pred source target,fun d hd => ?_⟩⟩
  rw [redirectSlots_eq] at hd ⊢
  split at hd
  · cases hd
  · rfl

def forkedArms : Module :=
  let m := (Module.empty "forked").addFunc "main" .void [] |>.1
  let m := m.addBlock 0 "start" |>.1
  let m := m.addBlock 0 "yes" |>.1
  let m := m.addBlock 0 "no" |>.1
  let m := m.addLiteral (.int 1) |>.1
  m.condBr ⟨0,0⟩ (.literal 0) ⟨0,1⟩ ⟨0,2⟩ |>.1

/-- Both arms of the branch lead to one block. -/
def mergedArms : Module := (forkedArms.redirect ⟨0,0⟩ ⟨0,1⟩ ⟨0,2⟩).toOption.getD forkedArms

theorem drawn_edges_mergedArms : Drawn "forked" mergedArms ∧ mergedArms.succs ⟨0,0⟩ = [⟨0,2⟩] ∧
    mergedArms.targets 0 = [⟨0,2⟩,⟨0,2⟩] ∧ (mergedArms.preds ⟨0,2⟩).Nodup ∧
    ⟨0,0⟩ ∈ mergedArms.preds ⟨0,2⟩ := by
  have hf : Drawn "forked" forkedArms :=
    .draw (.draw (.draw
      (.draw (.draw (.draw .empty (.addFunc "main" .void [])) (.addBlock 0 "start"))
      (.addBlock 0 "yes"))
      (.addBlock 0 "no")) (.addLiteral (.int 1)))
        (.condBr ⟨0,0⟩ (.literal 0) ⟨0,1⟩ ⟨0,2⟩ (by decide) fun _ => nofun)
  have hr : forkedArms.redirect ⟨0,0⟩ ⟨0,1⟩ ⟨0,2⟩ = .ok mergedArms := by
    have hok : (forkedArms.redirect ⟨0,0⟩ ⟨0,1⟩ ⟨0,2⟩).toOption.isSome = true := by decide +kernel
    unfold mergedArms
    cases hr : forkedArms.redirect ⟨0,0⟩ ⟨0,1⟩ ⟨0,2⟩ with
    | ok n => rfl
    | error d =>
      rw [hr] at hok
      cases hok
  have h : Drawn "forked" mergedArms := .draw hf (.redirect _ _ _ _ hr)
  obtain ⟨hedges,hsets,_⟩ := drawn_edges h
  have hs : mergedArms.succs ⟨0,0⟩ = [⟨0,2⟩] := by decide +kernel
  exact ⟨h,hs,by decide +kernel,(hsets _).2,
    (hedges _ _).1.mp (by rw [hs]; exact List.mem_singleton_self _)⟩

def askedBlock : Module :=
  let m := (Module.empty "asked").addFunc "main" .void [] |>.1
  let m := m.addBlock 0 "start" |>.1
  let m := m.addBlock 0 "yes" |>.1
  let m := m.addBlock 0 "no" |>.1
  m.addBlock 0 "other" |>.1

/-- A branch that has a block for its condition counts that block among its targets, but there is no
edge to it. -/
theorem unlisted_condition : Drawn "asked" askedBlock ∧ askedBlock.isTerminated ⟨0,0⟩ = false ∧
    let m := (askedBlock.condBr ⟨0,0⟩ (.block ⟨0,3⟩) ⟨0,1⟩ ⟨0,2⟩).1
    (∃ t, m.terminator? ⟨0,0⟩ = some t ∧ ⟨0,3⟩ ∈ m.targets t) ∧ ⟨0,3⟩ ∉ m.succs ⟨0,0⟩ := by
  refine ⟨?_,by decide,⟨0,by decide,by decide⟩,by decide⟩
  exact .draw (.draw (.draw (.draw (.draw .empty (.addFunc "main" .void [])) (.addBlock 0 "start"))
    (.addBlock 0 "yes"))
    (.addBlock 0 "no")) (.addBlock 0 "other")

end CMinusF
