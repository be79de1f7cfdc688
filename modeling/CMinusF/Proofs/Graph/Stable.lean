import CMinusF.Transform.Promotion
import CMinusF.Proofs.Graph.Places
import CMinusF.Proofs.Graph.Building
import CMinusF.Proofs.Hoisting.Invariants

/-! What the transformations keep of a module because each of their operations keeps it, whatever
the analyses say. -/
namespace CMinusF
open CMinusF.Module List

theorem foldl_keeps {σ α : Type} {P : σ → Prop} {g : σ → α → σ} (hg : ∀ s a, P s → P (g s a))
    (l : List α) {s : σ} (h : P s) :
    P (l.foldl g s) := by
  induction l generalizing s with
  | nil => exact h
  | cons a l ih => exact ih (hg s a h)

/-! What becomes of operations. -/

namespace Module
variable {m n : Module} {b : BlockId}

theorem redirect_lines {c d : BlockId} (hn : m.redirect b c d = .ok n) :
    (∀ a, (n.block a).instrs = (m.block a).instrs) ∧ ∀ j, (n.instr j).op = (m.instr j).op := by
  unfold redirect at hn
  split at hn
  · cases hn
  · rename_i t ht
    split at hn
    · obtain rfl := Except.ok.inj hn
      have hcode := code_replaceIn m t (.block c) (.block d)
      generalize m.replaceIn t (.block c) (.block d) = k at hcode ⊢
      have hl := (sameLines_removeEdge k b c).trans (sameLines_addEdge _ b d)
      refine ⟨fun a => ?_,fun j => ?_⟩
      · rw [hl.instrs]
        exact (lists_of_code (by rw [hcode]; rfl)).1
      · rw [op_of_code (congrFun hl.instr j)]
        exact op_of_setOperands hcode j
    · cases hn

theorem isTerminated_of_nil (h : (m.block b).instrs = []) : m.isTerminated b = false := by
  rw [isTerminated,terminator?,h]
  rfl

theorem addBlockBefore_lines (m : Module) (f : FuncId) (hint : String) (c : BlockId) :
    ((m.addBlockBefore f hint c).1.block (m.addBlockBefore f hint c).2).instrs = [] := by
  rw [addBlockBefore_fst]
  exact congrArg Block.instrs ((block_seat m f hint _ _).trans (if_pos rfl))

theorem op_newPhi_cases (m : Module) (b : BlockId) (t : Ty) (j : InstrId) :
    ((m.newPhi b t).1.instr j).op = (m.instr j).op ∨ ((m.newPhi b t).1.instr j).op = .phi := by
  have hop : ((m.newPhi b t).1.instr j).op = ((m.makeInstr b.func .phi t none []).1.instr j).op :=
    (placed_insertAt (m.makeInstr b.func .phi t none []).1 b _ m.instrTable.size).op j
  rw [hop]
  by_cases hs : j = m.instrTable.size
  · rw [hs]
    exact .inr (makeInstr_new m b.func .phi t none []).1
  · exact .inl (op_of_code ((code_makeInstr_old m b.func .phi t none []).1 j hs))

/-- What stays in its block is not turned into something that leaves it. -/
def KeepsPlain (m n : Module) : Prop :=
  ∀ j, (m.instr j).op.isTerminator = false → (n.instr j).op.isTerminator = false

theorem keepsPlain_of_op {m n : Module} (h : ∀ j, (n.instr j).op = (m.instr j).op) :
    KeepsPlain m n := fun j hj => h j ▸ hj

theorem KeepsPlain.trans {m n k : Module} (h : KeepsPlain m n) (h' : KeepsPlain n k) :
    KeepsPlain m k := fun j hj => h' j (h j hj)

theorem ne_br_of_plain {i : InstrId} (h : (m.instr i).op.isTerminator = false) :
    (m.instr i).op ≠ .br :=
  fun hop => by simp [hop,Opcode.isTerminator] at h

theorem keepsPlain_newPhi (m : Module) (b : BlockId) (t : Ty) : KeepsPlain m (m.newPhi b t).1 := by
  intro j hj
  obtain h | h := op_newPhi_cases m b t j
  · rw [h]
    exact hj
  · rw [h]
    rfl

theorem keepsPlain_br (m : Module) (b c : BlockId) : KeepsPlain m (m.br b c).1 := fun j hj => by
  -- the next number has no instruction yet, and so counts as one that leaves its block
  have hs : j ≠ m.instrTable.size := by
    rintro rfl
    rw [get_instr_size] at hj
    cases hj
  have hop : ((m.br b c).1.instr j).op =
    ((m.makeInstr b.func .br .void none [.block c]).1.instr j).op :=
    (op_of_code (congrFun (sameLines_addEdge (m.emit b .br .void [.block c]).1 b c).instr j)).trans
      ((placed_append (m.makeInstr b.func .br .void none [.block c]).1 b m.instrTable.size).op j)
  rw [hop,op_of_code ((code_makeInstr_old m b.func .br .void none [.block c]).1 j hs)]
  exact hj

theorem op_renameIncoming (m : Module) (c d : BlockId) (p j : InstrId) :
    ((m.renameIncoming c d p).instr j).op = (m.instr j).op := by
  refine foldl_keeps (P := fun n : Module => (n.instr j).op = (m.instr j).op)
    (fun n k hn => ?_) _ rfl
  split
  · rw [op_of_setOperands (code_setOperand n p k (.block d)),hn]
  · exact hn

theorem op_detach (m : Module) (i j : InstrId) : ((m.detach i).instr j).op = (m.instr j).op := by
  rw [detach]
  split
  · rename_i b _
    by_cases hib : i ∈ (m.block b).instrs
    · exact (taken_remove hib).1.op j
    · rw [remove,if_neg hib]
  · rfl

theorem op_moveBefore (m : Module) (i j k : InstrId) :
    ((m.moveBefore i j).instr k).op = (m.instr k).op := by
  rw [moveBefore_eq]
  split
  · exact ((placed_insertAt ..).op k).trans (op_detach m i k)
  · exact op_detach m i k

end Module

/-- Every operation by which edges of function `f` are given blocks and lines are moved keeps `P`:
lines leave a block once, and only they have blocks to lead to. -/
structure Rewires (f : FuncId) (P : Module → Prop) : Prop where
  newPhi : ∀ m b t, P m → P (m.newPhi b t).1
  addIncoming : ∀ m phi v b, (m.instr phi).op ≠ .br → P m → P (m.addIncoming phi v b)
  removeIncoming : ∀ m phi b, (m.instr phi).op ≠ .br → P m → P (m.removeIncoming phi b)
  renameIncoming : ∀ m b c phi, (m.instr phi).op ≠ .br → P m → P (m.renameIncoming b c phi)
  moveBefore : ∀ m i j, (m.instr i).op.isTerminator = false → P m → P (m.moveBefore i j)
  addBlockBefore : ∀ m hint b, P m → P (m.addBlockBefore f hint b).1
  br : ∀ m b c, m.isTerminated b = false → P m → P (m.br b c).1
  redirect : ∀ m b c d n, m.redirect b c d = .ok n → P m → P n

/-- Every operation by which function `f` is transformed keeps `P`. -/
structure Stable (f : FuncId) (P : Module → Prop) : Prop extends Rewires f P where
  addLiteral : ∀ m c, P m → P (m.addLiteral c).1
  feed : ∀ m phi v b, P m → P (m.addIncoming phi v b)
  replaceUses : ∀ m old new, P m → P (m.replaceUses old new)
  erase : ∀ m i, P m → P (m.erase i)

namespace Rewires
section
variable {f : FuncId} {P : Module → Prop} {m : Module} (hP : Rewires f P)
include hP

/-! Critical edges. -/

theorem splitEdge (h : P m) (b c : BlockId) : P (m.splitEdge f b c).1 := by
  have h1 := hP.addBlockBefore m ((m.block b).name ++ "_to_" ++ (m.block c).name ++ "_") c h
  have hnil := addBlockBefore_lines m f ((m.block b).name ++ "_to_" ++ (m.block c).name ++ "_") c
  unfold Module.splitEdge
  extract_lets hint
  split
  rename_i k d hk
  rw [hk] at h1 hnil
  split
  · exact h1
  · rename_i n hn
    have h2 := hP.br n d c (isTerminated_of_nil (((redirect_lines hn).1 d).trans hnil))
      (hP.redirect _ _ _ _ _ hn h1)
    generalize n.br d c = r at h2 ⊢
    refine (foldlRecOn (r.1.phis c) _ (motive := fun n : Module => P n ∧
      ∀ j, (n.instr j).op = (r.1.instr j).op)
      ⟨h2,fun _ => rfl⟩ fun n hn p hp => ?_).1
    have hop : (n.instr p).op ≠ .br := by
      rw [hn.2,op_of_mem_phis hp]
      decide
    exact ⟨hP.renameIncoming n b d p hop hn.1,fun j => (op_renameIncoming n b d p j).trans (hn.2 j)⟩

theorem splitCriticalEdges (h : P m) : P (m.splitCriticalEdges f).module := by
  refine foldl_keeps (P := fun r : SplitResult => P r.module) (fun r c hr => ?_) _ h
  unfold splitInto
  split
  · exact hr
  · refine foldl_keeps (P := fun r : SplitResult => P r.module) (fun r b hr => ?_) _ hr
    have hs := hP.splitEdge hr b c
    unfold splitIfCritical
    grind

/-! Hoisting, whatever forest and purity it is given. -/

theorem redirectAll (b c : BlockId) (bs : List BlockId) (h : P m) :
    P (Hoisting.redirectAll b c m bs).1 ∧
    (∀ a, ((Hoisting.redirectAll b c m bs).1.block a).instrs = (m.block a).instrs) ∧
    ∀ j, ((Hoisting.redirectAll b c m bs).1.instr j).op = (m.instr j).op := by
  induction bs generalizing m with
  | nil => exact ⟨h,fun _ => rfl,fun _ => rfl⟩
  | cons a bs ih =>
    rw [Hoisting.redirectAll]
    split
    · rename_i n hn
      obtain ⟨h1,h2,h3⟩ := ih (hP.redirect _ _ _ _ _ hn h)
      obtain ⟨h4,h5⟩ := redirect_lines hn
      simp_all
    · exact ⟨h,fun _ => rfl,fun _ => rfl⟩

theorem splitPhi (l : Loop) (pre : BlockId) (hm : P m) {phi : InstrId}
    (hphi : (m.instr phi).op.isTerminator = false) :
    P (Hoisting.splitPhi l pre m phi) ∧ KeepsPlain m (Hoisting.splitPhi l pre m phi) := by
  unfold Hoisting.splitPhi
  extract_lets outside
  split
  · exact ⟨hm,fun _ hj => hj⟩
  · have h1 := hP.newPhi m pre (m.instr phi).type hm
    have hnew := op_newPhi m pre (m.instr phi).type
    have hold := keepsPlain_newPhi m pre (m.instr phi).type
    have hsnd := newPhi_snd m pre (m.instr phi).type
    generalize m.newPhi pre (m.instr phi).type = r at h1 hnew hold hsnd ⊢
    clear_value outside
    rw [← hsnd] at hnew
    have hphi' := ne_br_of_plain (hold phi hphi)
    -- both phis are no branches, and stay so
    have h2 := foldlRecOn outside (fun m (x : Operand × BlockId) =>
      (m.addIncoming r.2 x.1 x.2).removeIncoming phi x.2)
      (motive := fun n : Module => P n ∧ ∀ j, (n.instr j).op = (r.1.instr j).op)
        ⟨h1,fun _ => rfl⟩ fun n hn x _ => by
        have ha := op_of_setOperands (code_addIncoming n r.2 x.1 x.2)
        have hr := op_of_setOperands (code_removeIncoming (n.addIncoming r.2 x.1 x.2) phi x.2)
        refine ⟨hP.removeIncoming _ phi x.2 ?_ (hP.addIncoming n r.2 x.1 x.2 ?_ hn.1),
          fun j => ((hr j).trans (ha j)).trans (hn.2 j)⟩
        · rwa [ha,hn.2]
        · rw [hn.2,hnew]
          decide
    refine ⟨hP.addIncoming _ phi _ pre (by rwa [h2.2]) h2.1,
      hold.trans (keepsPlain_of_op fun j => ?_)⟩
    rw [op_of_setOperands (code_addIncoming _ phi _ pre),h2.2]

open Hoisting in
theorem makePreheader {s : State} (hs : P s.module) (k : Nat) :
    P (makePreheader f s k).1.module ∧ KeepsPlain s.module (makePreheader f s k).1.module := by
  have h1 := hP.addBlockBefore _ "preheader" (s.forest.loop k).header hs
  have hnil := addBlockBefore_lines s.module f "preheader" (s.forest.loop k).header
  have hop : KeepsPlain s.module
    (s.module.addBlockBefore f "preheader" (s.forest.loop k).header).1 :=
    keepsPlain_of_op fun j => by
      rw [addBlockBefore_fst,instr,instr,(tables_seat s.module f "preheader" _).1]
  unfold Hoisting.makePreheader
  extract_lets l outside
  generalize s.module.addBlockBefore f "preheader" l.header = r at h1 hnil hop ⊢
  obtain ⟨h2,hlines,hop'⟩ := hP.redirectAll l.header r.2 outside h1
  dsimp only
  split
  · rename_i heq
    rw [heq] at h2 hop'
    exact ⟨h2,hop.trans (keepsPlain_of_op hop')⟩
  · rename_i n heq
    rw [heq] at h2 hlines hop'
    have h3 := hP.br n r.2 l.header (isTerminated_of_nil ((hlines r.2).trans hnil)) h2
    have hplain := (hop.trans (keepsPlain_of_op hop')).trans (keepsPlain_br n r.2 l.header)
    generalize n.br r.2 l.header = q at h3 hplain ⊢
    have h4 := foldlRecOn (q.1.phis l.header) (Hoisting.splitPhi l r.2)
      (motive := fun n : Module => P n ∧ KeepsPlain q.1 n) ⟨h3,fun _ hj => hj⟩ fun n hn p hp => by
        obtain ⟨h4,h5⟩ := hP.splitPhi l r.2 hn.1 (hn.2 p (by rw [op_of_mem_phis hp]; rfl))
        exact ⟨h4,hn.2.trans h5⟩
    exact ⟨h4.1,hplain.trans h4.2⟩

open Hoisting in
theorem runOnLoop (p : Purity) {s : State} (hs : P s.module) (k : Nat) :
    P (runOnLoop p f s k).module := by
  have hpre : P (preheader f s k).1.module ∧ KeepsPlain s.module (preheader f s k).1.module := by
    unfold preheader
    split
    · exact ⟨hs,fun _ hj => hj⟩
    · exact hP.makePreheader hs k
  unfold Hoisting.runOnLoop
  extract_lets found
  split
  · exact hs
  · split
    · exact hs
    · split <;> rename_i heq <;> rw [heq] at hpre
      · exact hpre.1
      · split
        · exact hpre.1
        · rename_i t _
          have hfound : ∀ i ∈ found, (s.module.instr i).op.isTerminator = false :=
            fun i hi => (op_of_mem_invariants hi).2.2
          clear_value found
          refine (foldlRecOn found _ (motive := fun n : Module => P n ∧
            KeepsPlain s.module n) hpre fun n hn i hi => ?_).1
          exact ⟨hP.moveBefore n i t (hn.2 i (hfound i hi)) hn.1,
            hn.2.trans (keepsPlain_of_op (op_moveBefore n i t))⟩

theorem hoisting (h : P m) (t : Forest) (p : Purity) : P (Hoisting.run m f t p).module :=
  foldl_keeps (P := fun s : Hoisting.State => P s.module)
    (fun _ k hs => hP.runOnLoop p hs k) t.postorder
    (s := ⟨m,t,⟨0,0⟩,none⟩) h

end
end Rewires

namespace Stable
section
variable {f : FuncId} {P : Module → Prop} {m : Module} (hP : Stable f P)
include hP

/-! Promotion of locals, whatever dominators it is given. -/

open Promotion in
theorem placePhis (d : Dominance) (as : List InstrId) {p : Placement} (h : P p.module) :
    P (as.foldl (placePhis d) p).module := by
  refine foldl_keeps (P := fun p : Placement => P p.module) (fun p a hp => ?_) as h
  exact foldl_keeps (P := fun p : Placement => P p.module)
    (fun p b hp => hP.newPhi _ b (objectOf p.module a) hp)
    (joinBlocks p.module d a) hp

theorem current (h : P m) (values : Promotion.Values) (a : InstrId) :
    P (Promotion.current m values a).1 := by
  unfold Promotion.current
  split
  · exact h
  · exact hP.addLiteral _ _ h

theorem renameInstr (names : Promotion.Names) {s : Promotion.Renaming × Promotion.Values}
    (h : P s.1.module) (i : InstrId) :
    P (Promotion.renameInstr names s i).1.module := by
  obtain ⟨r,values⟩ := s
  unfold Promotion.renameInstr
  dsimp only
  split
  · split <;> exact h
  · split <;> exact h
  · split
    · exact hP.replaceUses _ _ _ (hP.current h values _)
    · exact h
  · exact h

theorem feedSuccessors (names : Promotion.Names) (values : Promotion.Values)
    (b : BlockId) (h : P m) :
    P (Promotion.feedSuccessors names values b m) := by
  refine foldl_keeps (fun n c hn => foldl_keeps (fun k phi hk => ?_) _ hn) _ h
  unfold Promotion.feedPhi
  split
  · exact hP.feed _ phi _ b (hP.current hk values _)
  · exact hk

open Promotion in
theorem renameBlock (names : Promotion.Names) (d : Dominance) (n : Nat) (values : Values)
    {r : Renaming} (h : P r.module) (b : BlockId) :
    P (renameBlock names d n values r b).module := by
  induction n generalizing values r b with
  | zero => exact h
  | succ n ih =>
    have hb := foldl_keeps (P := fun s : Renaming × Values => P s.1.module)
      (fun s i hs => hP.renameInstr names hs i)
      (r.module.block b).instrs (s := (r,values)) h
    rw [Promotion.renameBlock]
    generalize (r.module.block b).instrs.foldl (Promotion.renameInstr names) (r,values) = s at hb ⊢
    exact foldl_keeps (P := fun r : Renaming => P r.module) (fun r c hr => ih s.2 hr c) _
      (s := ⟨Promotion.feedSuccessors names s.2 b s.1.module,s.1.dead⟩)
        (hP.feedSuccessors names s.2 b hb)

theorem renameUnreached (names : Promotion.Names) {r : Promotion.Renaming} (h : P r.module)
    (i : InstrId) :
    P (Promotion.renameUnreached names r i).module := by
  unfold Promotion.renameUnreached
  split
  · split <;> exact h
  · split
    · exact hP.replaceUses _ _ _ (hP.addLiteral _ _ h)
    · exact h
  · exact h

theorem eraseLocals (g : FuncId) (as : List InstrId) (h : P m) :
    P (Promotion.eraseLocals g m as).1 := by
  induction as generalizing m with
  | nil => exact h
  | cons a as ih =>
    rw [Promotion.eraseLocals]
    split
    · exact ih (hP.erase m a h)
    · exact h

theorem promotion (h : P m) (d : Dominance) : P (Promotion.run m f d).module := by
  unfold Promotion.run
  extract_lets locals placed tracked names entry r unreached r' m'
  split
  · exact h
  · have h0 : P placed.module := hP.placePhis d locals h
    have h1 : P r.module := hP.renameBlock names d _ .empty (r := ⟨placed.module,[]⟩) h0 entry
    clear_value r
    have h2 : P r'.module := foldl_keeps (P := fun r : Promotion.Renaming => P r.module)
      (fun r b hr =>
      foldl_keeps (P := fun r : Promotion.Renaming => P r.module)
        (fun r i hr => hP.renameUnreached names hr i) _ hr) unreached h1
    clear_value r'
    have h3 : P m' := foldl_keeps (fun m i h => hP.erase m i h) r'.dead h2
    have h4 := hP.eraseLocals f locals h3
    split <;> rename_i heq <;> rw [heq] at h4 <;> exact h4

end
end Stable
end CMinusF
