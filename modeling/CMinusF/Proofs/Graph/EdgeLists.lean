import CMinusF.Proofs.Graph.Places

/-! Edge lists agree with the branches at the ends of blocks, and every operation on the graph keeps
it so. -/
namespace CMinusF.Module
open List
variable {b c a d : BlockId} {vs : List Operand} {op : Opcode} {before after : List InstrId}
  {k : Nat} {v : Operand} {p : InstrId}

/-- The edge lists are what the branches make them, and sets. -/
structure Charted (m : Module) : Prop extends Orderly m where
  succs : ∀ a b, b ∈ m.succs a ↔ m.Branches a b
  preds : ∀ a b, a ∈ m.preds b ↔ b ∈ m.succs a
  succs_nodup : ∀ a, (m.succs a).Nodup
  preds_nodup : ∀ a, (m.preds a).Nodup

variable {m n : Module} {i : InstrId}

theorem Charted.empty (name : String) : (Module.empty name).Charted := by
  have hb : ∀ b, (Module.empty name).block b = default := fun b => by rfl
  have hi : ∀ i, (Module.empty name).instr i = default := fun i => Table.get_empty i
  have hinstrs : ∀ b, ((Module.empty name).block b).instrs = [] := fun b => by rw [hb]; rfl
  have hsuccs : ∀ b, (Module.empty name).succs b = [] := fun b => by rw [Module.succs,hb]; rfl
  have hpreds : ∀ b, (Module.empty name).preds b = [] := fun b => by rw [Module.preds,hb]; rfl
  refine ⟨⟨fun b i => ?_,fun b => ?_,fun b xs i ys hs => ?_⟩,fun a b => ?_,fun a b => ?_,
    fun a => ?_,fun a => ?_⟩
  · rw [hinstrs,hi]
    exact ⟨fun h => absurd h not_mem_nil,fun h => by cases h⟩
  · rw [hinstrs]
    exact nodup_nil
  · rw [hinstrs] at hs
    simp at hs
  · rw [hsuccs,Branches,hinstrs]
    simp
  · rw [hsuccs,hpreds]
    simp
  · rw [hsuccs]
    exact nodup_nil
  · rw [hpreds]
    exact nodup_nil

namespace Charted

variable (h : Charted m)
include h

theorem of_view (hi : ∀ b, (n.block b).instrs = (m.block b).instrs)
    (hp : ∀ i, (n.instr i).parent = (m.instr i).parent)
    (hop : ∀ b, ∀ i ∈ (m.block b).instrs, (n.instr i).op = (m.instr i).op ∧
      n.targets i = m.targets i)
    (hs : ∀ b, n.succs b = m.succs b) (hpr : ∀ b, n.preds b = m.preds b) : Charted n where
  toOrderly := h.toOrderly.of_view hi hp fun b i hib => (hop b i hib).1
  succs a c := by
    rw [hs,h.succs,Branches,Branches,hi]
    grind
  preds a c := by rw [hs,hpr,h.preds]
  succs_nodup a := hs a ▸ h.succs_nodup a
  preds_nodup a := hpr a ▸ h.preds_nodup a

/-- Only the code matters, and of an instruction that is no branch not even the operands. -/
theorem of_code (hb : n.code.block = m.code.block)
    (hi : ∀ i, (n.instr i).op = (m.instr i).op ∧ (n.instr i).parent = (m.instr i).parent)
    (hops : ∀ i, (m.instr i).op = .br → (m.instr i).parent ≠ none → n.targets i = m.targets i) :
    Charted n := by
  have hblock : ∀ b, n.code.block b = m.code.block b := fun b => congrFun hb b
  refine h.of_view (fun b => ?_) (fun i => (hi i).2) (fun b i hib => ⟨(hi i).1,?_⟩)
    (fun b => ?_) fun b => ?_
  · exact (lists_of_code (hblock b)).1
  · by_cases hop : (m.instr i).op = .br
    · exact hops i hop (by simp [(h.seated b i).mp hib])
    · rw [targets_of_not_br hop,targets_of_not_br ((hi i).1 ▸ hop)]
  · exact (lists_of_code (hblock b)).2.1
  · exact (lists_of_code (hblock b)).2.2

theorem setOperands (hn : n.code = m.code.setOperands i vs)
    (hvs : (m.instr i).op = .br → (m.instr i).parent ≠ none →
      vs.filterMap blockOf? = (m.operands i).filterMap blockOf?) :
    Charted n := by
  have hop := op_of_setOperands hn
  refine h.of_code (by rw [hn]; rfl) (fun j => ⟨hop j,parent_of_setOperands hn j⟩)
    fun j hbr hj => ?_
  rw [targets_of_br hbr,targets_of_br ((hop j).trans hbr),operands_setOperands_of_code hn]
  grind

/-! Making things that nothing leads to. -/

theorem addLiteral (c : Constant) : Charted (m.addLiteral c).1 :=
  h.of_view (fun _ => rfl) (fun _ => rfl) (fun _ _ _ => ⟨rfl,rfl⟩) (fun _ => rfl) fun _ => rfl

theorem addGlobal (name : String) (t : Ty) : Charted (m.addGlobal name t).1 :=
  h.of_view (fun _ => rfl) (fun _ => rfl) (fun _ _ _ => ⟨rfl,rfl⟩) (fun _ => rfl) fun _ => rfl

theorem addFunc (name : String) (result : Ty) (params : List Ty) :
    Charted (m.addFunc name result params).1 := by
  have hb := block_addFunc m name result params
  exact h.of_view (fun b => by rw [hb]) (fun _ => rfl) (fun _ _ _ => ⟨rfl,rfl⟩)
    (fun b => congrArg Block.succs (hb b))
    fun b => congrArg Block.preds (hb b)

theorem seat (f : FuncId) (hint : String) (place : List BlockId → List BlockId) :
    Charted (m.seat f hint place) := by
  have hb : ∀ c, ((m.seat f hint place).block c).instrs = (m.block c).instrs ∧
    (m.seat f hint place).succs c = m.succs c ∧
      (m.seat f hint place).preds c = m.preds c := by
    intro c
    rw [Module.succs,Module.preds,block_seat]
    split
    · rename_i hnew
      have hd : m.block c = default := by
        rw [hnew]
        exact Table.get_of_size_le _ (Nat.le_refl _)
      rw [Module.succs,Module.preds,hd]
      exact ⟨rfl,rfl,rfl⟩
    · exact ⟨rfl,rfl,rfl⟩
  have hi : ∀ i, (m.seat f hint place).instr i = m.instr i := fun i => by
    rw [instr,instr,(tables_seat m f hint place).1]
  refine h.of_view (fun b => (hb b).1) (fun i => by rw [hi]) (fun _ i _ => ⟨by rw [hi],?_⟩)
    (fun b => (hb b).2.1) fun b => (hb b).2.2
  rw [targets,targets,operands,operands,hi]

theorem addBlock (f : FuncId) (hint : String) : Charted (m.addBlock f hint).1 := by
  rw [addBlock_fst]
  exact h.seat f hint _

theorem addBlockBefore (f : FuncId) (hint : String) (c : BlockId) :
    Charted (m.addBlockBefore f hint c).1 := by
  rw [addBlockBefore_fst]
  exact h.seat f hint _

theorem ne_size (hi : i ∈ (m.block b).instrs) : i ≠ m.instrTable.size := by
  rintro rfl
  rw [h.seated,get_instr_size] at hi
  cases hi

theorem makeInstr (f : FuncId) (op : Opcode) (t : Ty) (object : Option Ty) (vs : List Operand) :
    Charted (m.makeInstr f op t object vs).1 := by
  obtain ⟨hinstr,hblock⟩ := code_makeInstr_old m f op t object vs
  have hnew := (makeInstr_new m f op t object vs).2.1
  generalize (m.makeInstr f op t object vs).1 = n at hinstr hblock hnew ⊢
  refine h.of_view (fun b => (lists_of_code (hblock b)).1) (fun j => ?_) (fun b j hj => ?_)
    (fun b => (lists_of_code (hblock b)).2.1) fun b => (lists_of_code (hblock b)).2.2
  · by_cases hj : j = m.instrTable.size
    · rw [hj,hnew,get_instr_size]
      rfl
    · exact parent_of_code (hinstr j hj)
  · exact ⟨op_of_code (hinstr j (h.ne_size hj)),targets_congr (hinstr j (h.ne_size hj))⟩

end Charted

/-! Lines. -/

theorem Placed.charted (hn : Placed m n b i before after) (h : Charted m)
    (hi : (m.instr i).parent = none) (hbr : (m.instr i).op ≠ .br)
    (hbefore : ∀ j ∈ before, (m.instr j).op.isTerminator = false)
    (hterm : (m.instr i).op.isTerminator = true → after = []) :
    Charted n where
  toOrderly := hn.orderly h.toOrderly hi hbefore hterm
  succs a c := by
    rw [hn.succs,h.succs,hn.branches_iff,targets_of_not_br hbr]
    simp
  preds a c := by rw [hn.succs,hn.preds,h.preds]
  succs_nodup a := hn.succs a ▸ h.succs_nodup a
  preds_nodup a := hn.preds a ▸ h.preds_nodup a

namespace Charted

variable (h : Charted m)
include h

/-- No terminator is among lines that are still there after an instruction has been made. -/
theorem plain_makeInstr {ls : List InstrId} (hls : ls ⊆ (m.block b).instrs)
    (hplain : ∀ j ∈ ls, (m.instr j).op.isTerminator = false) (f : FuncId) (op : Opcode) (t : Ty)
    (object : Option Ty) (vs : List Operand) :
    ∀ j ∈ ls, ((m.makeInstr f op t object vs).1.instr j).op.isTerminator = false := by
  intro j hj
  rw [op_of_code ((code_makeInstr_old m f op t object vs).1 j (h.ne_size (hls hj)))]
  exact hplain j hj

/-- A new instruction goes between the lines of a block, none of those before it being a terminator.
-/
theorem place (hop : op ≠ .br) (f : FuncId) (t : Ty) (object : Option Ty) (vs : List Operand)
    (hn : Placed (m.makeInstr f op t object vs).1 n b m.instrTable.size before after)
    (hbefore : ∀ j ∈ before, (m.instr j).op.isTerminator = false)
    (hterm : op.isTerminator = true → after = []) : Charted n := by
  obtain ⟨hnew,hparent,_⟩ := makeInstr_new m f op t object vs
  have hlines := congrArg Block.instrs ((code_makeInstr_old m f op t object vs).2 b)
  have hsub : before ⊆ (m.block b).instrs := fun j hj => by
    have := hn.lines.symm.trans hlines
    rw [instrs_eq_code,← this]
    exact mem_append_left _ hj
  exact hn.charted (h.makeInstr f op t object vs) hparent (by rwa [hnew])
    (h.plain_makeInstr hsub hbefore f op t object vs)
    (by rwa [hnew])

theorem append (hb : m.isTerminated b = false) (hop : op ≠ .br) (f : FuncId) (t : Ty)
    (object : Option Ty) (vs : List Operand) :
    Charted ((m.makeInstr f op t object vs).1.append b m.instrTable.size) := by
  have hlines := congrArg Block.instrs ((code_makeInstr_old m f op t object vs).2 b)
  refine h.place hop f t object vs (placed_append _ b _) (fun j hj => ?_) fun _ => rfl
  rw [instrs_eq_code,hlines] at hj
  exact h.plain_of_not_isTerminated hb hj

theorem emit (hb : m.isTerminated b = false) (hop : op ≠ .br) (t : Ty) (vs : List Operand) :
    Charted (m.emit b op t vs).1 := h.append hb hop b.func t none vs

theorem alloca (hb : m.isTerminated b = false) (t : Ty) : Charted (m.alloca b t).1 :=
  h.append hb (show Opcode.alloca ≠ .br by decide) b.func (.pointer t) (some t) []

/-- Lines of one kind at the head of a block have no terminator among them. -/
theorem insertAfter (hop : op.isTerminator = false) (f : FuncId) (t : Ty) (object : Option Ty)
    (vs : List Operand) : Charted ((m.makeInstr f op t object vs).1.insertAt b
      (((m.makeInstr f op t object vs).1.block b).instrs.takeWhile fun i =>
        ((m.makeInstr f op t object vs).1.instr i).op = op).length m.instrTable.size) := by
  obtain ⟨hinstr,hblock⟩ := code_makeInstr_old m f op t object vs
  have hlines := congrArg Block.instrs (hblock b)
  refine h.place (by rintro rfl; cases hop) f t object vs (placed_insertAt _ b _ _) (fun j hj => ?_)
    fun ht => absurd (hop.symm.trans ht) (by decide)
  rw [← prefix_iff_eq_take.mp ( takeWhile_prefix _)] at hj
  have hjb : j ∈ (m.block b).instrs := by
    rw [instrs_eq_code,← hlines]
    exact takeWhile_subset _ hj
  have hjop : ((m.makeInstr f op t object vs).1.instr j).op = op :=
    of_decide_eq_true (all_eq_true.mp all_takeWhile j hj)
  rwa [← op_of_code (hinstr j (h.ne_size hjb)),hjop]

theorem newPhi (b : BlockId) (t : Ty) : Charted (m.newPhi b t).1 :=
  h.insertAfter (rfl : Opcode.phi.isTerminator = false) b.func t none []

theorem allocaAtEntry (f : FuncId) (t : Ty) : Charted (m.allocaAtEntry f t).1 :=
  h.insertAfter (b := (m.func f).entryBlock?.getD default)
    (rfl : Opcode.alloca.isTerminator = false) _ (.pointer t) (some t) []

end Charted

/-! Edges. -/

theorem nodup_addTo {bs : List BlockId} (h : bs.Nodup) (c : BlockId) : (addTo bs c).Nodup := by
  unfold addTo
  split
  · exact h
  · rename_i hc
    exact nodup_append'.mpr ⟨h,nodup_singleton c,by simpa using hc⟩

theorem mem_succs_addEdge : d ∈ (m.addEdge b c).succs a ↔ d ∈ m.succs a ∨ (a = b ∧ d = c) := by
  rw [succs_addEdge]
  split
  · rename_i ha
    simp [mem_addTo,ha]
  · rename_i ha
    simp [ha]

theorem mem_preds_addEdge : a ∈ (m.addEdge b c).preds d ↔ a ∈ m.preds d ∨ (d = c ∧ a = b) := by
  rw [preds_addEdge]
  split
  · rename_i hd
    simp [mem_addTo,hd]
  · rename_i hd
    simp [hd]

/-- The edge lists are symmetric and sets. -/
structure Paired (m : Module) : Prop where
  preds : ∀ a b, a ∈ m.preds b ↔ b ∈ m.succs a
  succs_nodup : ∀ a, (m.succs a).Nodup
  preds_nodup : ∀ a, (m.preds a).Nodup

namespace Paired

theorem of_lists (h : Paired m) (hs : ∀ b, n.succs b = m.succs b)
    (hp : ∀ b, n.preds b = m.preds b) : Paired n where
  preds a b := by rw [hs,hp,h.preds]
  succs_nodup a := hs a ▸ h.succs_nodup a
  preds_nodup a := hp a ▸ h.preds_nodup a

theorem addEdge (h : Paired m) (b c : BlockId) : Paired (m.addEdge b c) where
  preds a d := by rw [mem_preds_addEdge,mem_succs_addEdge,h.preds,and_comm]
  succs_nodup a := by
    rw [succs_addEdge]
    split
    · exact nodup_addTo (h.succs_nodup b) c
    · exact h.succs_nodup a
  preds_nodup a := by
    rw [preds_addEdge]
    split
    · exact nodup_addTo (h.preds_nodup c) b
    · exact h.preds_nodup a

theorem removeEdge (h : Paired m) (b c : BlockId) : Paired (m.removeEdge b c) where
  preds a d := by
    rw [preds_removeEdge,succs_removeEdge]
    split <;> split <;> simp_all [h.preds]
  succs_nodup a := by
    rw [succs_removeEdge]
    split
    · exact (h.succs_nodup b).filter _
    · exact h.succs_nodup a
  preds_nodup a := by
    rw [preds_removeEdge]
    split
    · exact (h.preds_nodup c).filter _
    · exact h.preds_nodup a

end Paired

theorem Charted.paired (h : Charted m) : Paired m := ⟨h.preds,h.succs_nodup,h.preds_nodup⟩

theorem Charted.of_paired (h : Orderly m) (hp : Paired m)
    (hs : ∀ a b, b ∈ m.succs a ↔ m.Branches a b) : Charted m :=
  ⟨h,hs,hp.preds,hp.succs_nodup,hp.preds_nodup⟩

theorem addEdges (m : Module) (b : BlockId) (cs : List BlockId) :
    SameLines m (cs.foldl (fun m c => m.addEdge b c) m) ∧
    (Paired m → Paired (cs.foldl (fun m c => m.addEdge b c) m)) ∧
    (∀ a d, d ∈ (cs.foldl (fun m c => m.addEdge b c) m).succs a ↔
      d ∈ m.succs a ∨ (a = b ∧ d ∈ cs)) ∧
    (m.Mirror → (cs.foldl (fun m c => m.addEdge b c) m).Mirror) ∧
    (m.Made b → (∀ c ∈ cs, m.Made c) → (cs.foldl (fun m c => m.addEdge b c) m).sizes =
      m.sizes) := by
  induction cs generalizing m with
  | nil => exact ⟨⟨⟨rfl⟩,rfl,fun _ => rfl,rfl⟩,id,by simp,id,fun _ _ => rfl⟩
  | cons c cs ih =>
    obtain ⟨hl,hp,hs,hu,hz⟩ := ih (m.addEdge b c)
    rw [foldl_cons]
    generalize cs.foldl (fun m c => m.addEdge b c) (m.addEdge b c) = n at hl hp hs hu hz ⊢
    refine ⟨(sameLines_addEdge m b c).trans hl,fun h => hp (h.addEdge b c),fun a d => ?_,
      fun h => hu (h.addEdge b c),fun hb hcs => ?_⟩
    · rw [hs,mem_succs_addEdge,mem_cons]
      tauto
    · have hsz := sizes_addEdge m hb (hcs c mem_cons_self)
      have hmade : ∀ {d}, m.Made d → (m.addEdge b c).Made d :=
        fun hd => hd.of_blocks (congrArg Sizes.blocks hsz)
      simp_all

theorem mem_succs_removeEdge :
    d ∈ (m.removeEdge b c).succs a ↔ d ∈ m.succs a ∧ ¬(a = b ∧ d = c) := by
  rw [succs_removeEdge]
  grind

theorem removeEdges (m : Module) (b : BlockId) (cs : List BlockId) :
    SameLines m (cs.foldl (fun m c => m.removeEdge b c) m) ∧
    (Paired m → Paired (cs.foldl (fun m c => m.removeEdge b c) m)) ∧
    ∀ a d, d ∈ (cs.foldl (fun m c => m.removeEdge b c) m).succs a ↔
      d ∈ m.succs a ∧ ¬(a = b ∧ d ∈ cs) := by
  induction cs generalizing m with
  | nil => exact ⟨⟨⟨rfl⟩,rfl,fun _ => rfl,rfl⟩,id,by simp⟩
  | cons c cs ih =>
    obtain ⟨hl,hp,hs⟩ := ih (m.removeEdge b c)
    rw [foldl_cons]
    generalize cs.foldl (fun m c => m.removeEdge b c) (m.removeEdge b c) = n at hl hp hs ⊢
    refine ⟨(sameLines_removeEdge m b c).trans hl,fun h => hp (h.removeEdge b c),fun a d => ?_⟩
    rw [hs,mem_succs_removeEdge,mem_cons]
    tauto

theorem erase_eq_cut (m : Module) (i : InstrId) : m.erase i =
    match (m.instr i).parent with
    | some b => (((m.targets i).foldl (fun m c => m.removeEdge b c) m).dropOperands i).remove b i
    | none => m.dropOperands i := by
  cases hpar : (m.instr i).parent with
  | none =>
    have hp := parent_dropOperands m i
    unfold dropOperands at hp ⊢
    simp only [Module.erase,hpar,hp]
  | some b =>
    have hl := (removeEdges m b (m.targets i)).1
    have hp := (parent_dropOperands ((m.targets i).foldl (fun m c => m.removeEdge b c) m) i).trans
      (parent_of_code (congrFun hl.instr i))
    unfold dropOperands at hp ⊢
    simp only [Module.erase,hpar,hp]

theorem filterMap_set (hk : ∀ c, vs.getD k .hole ≠ .block c) (hv : ∀ c, v ≠ .block c) :
    (vs.set k v).filterMap blockOf? = vs.filterMap blockOf? := by
  have hnone : ∀ u : Operand, (∀ c, u ≠ .block c) → blockOf? u = none := by
    intro u hu
    cases u with
    | block c => exact absurd rfl (hu c)
    | _ => rfl
  induction vs generalizing k with
  | nil => rfl
  | cons u vs ih =>
    cases k with
    | zero =>
      grind
    | succ k =>
      rw [set_cons_succ,filterMap_cons,filterMap_cons,ih fun c => by simpa using hk c]

namespace Charted

variable (h : Charted m)
include h

theorem branch (hb : m.isTerminated b = false) {cs : List BlockId}
    (hcs : ∀ c, .block c ∈ vs ↔ c ∈ cs) :
    Charted (cs.foldl (fun m c => m.addEdge b c) (m.emit b .br .void vs).1) := by
  obtain ⟨hnew,hparent,hops⟩ := makeInstr_new m b.func .br .void none vs
  have hlines := congrArg Block.instrs ((code_makeInstr_old m b.func .br .void none vs).2 b)
  have hplain := h.plain_makeInstr (List.Subset.refl _)
    (fun j hj => h.plain_of_not_isTerminated hb hj) b.func .br .void none vs
  have hk := h.makeInstr b.func .br .void none vs
  have hn : Placed (m.makeInstr b.func .br .void none vs).1
    (m.emit b .br .void vs).1 b m.instrTable.size _ _ :=
    placed_append (m.makeInstr b.func .br .void none vs).1 b m.instrTable.size
  rw [instrs_eq_code,hlines] at hn
  generalize (m.makeInstr b.func .br .void none vs).1 = k at *
  generalize (m.emit b .br .void vs).1 = n at hn ⊢
  obtain ⟨hl,hp,hs,-⟩ := addEdges n b cs
  refine of_paired (hl.orderly (hn.orderly hk.toOrderly hparent hplain fun _ => rfl))
    (hp (hk.paired.of_lists hn.succs hn.preds)) fun a c => ?_
  rw [hs,hl.branches_iff,hn.branches_iff,hn.succs,hk.succs,mem_targets,hops,hcs]
  simp_all

theorem br (hb : m.isTerminated b = false) (c : BlockId) : Charted (m.br b c).1 :=
  h.branch hb (show ∀ o, .block o ∈ [Operand.block c] ↔ o ∈ [c] by simp)

theorem condBr (hb : m.isTerminated b = false) (hv : ∀ o, v ≠ .block o) (c d : BlockId) :
    Charted (m.condBr b v c d).1 :=
  h.branch hb (show ∀ o, .block o ∈ [v,.block c,.block d] ↔
    o ∈ [c,d] from fun o => by simp [(hv o).symm])

/-! Operands. -/

theorem setOperand
    (hv : (m.instr i).op = .br → (∀ c, m.operand i k ≠ .block c) ∧ ∀ c, v ≠ .block c) :
    Charted (m.setOperand i k v) := by
  refine h.setOperands (code_setOperand m i k v) fun hop _ => ?_
  obtain ⟨hold,hnew⟩ := hv hop
  exact filterMap_set hold hnew

theorem addIncoming (hp : (m.instr p).op ≠ .br) (v : Operand) (c : BlockId) :
    Charted (m.addIncoming p v c) :=
  h.setOperands (code_addIncoming m p v c) fun hop => absurd hop hp

theorem removeIncoming (hp : (m.instr p).op ≠ .br) (c : BlockId) :
    Charted (m.removeIncoming p c) :=
  h.setOperands (code_removeIncoming m p c) fun hop => absurd hop hp

theorem renameIncoming (hp : (m.instr p).op ≠ .br) (c d : BlockId) :
    Charted (m.renameIncoming c d p) := by
  refine (foldlRecOn (range (m.operands p).length) _
    (motive := fun n : Module => Charted n ∧ (n.instr p).op ≠ .br) ⟨h,hp⟩ fun n hn k _ => ?_).1
  split
  · exact ⟨hn.1.setOperand fun hop => absurd hop hn.2,
      by rw [op_of_setOperands (code_setOperand n p k (.block d))]; exact hn.2⟩
  · exact hn

/-! Sending a branch elsewhere. -/

theorem redirected {k : Module} {t : InstrId} (ht : m.terminator? b = some t)
    (hop : (m.instr t).op = .br) (hc : .block c ∈ m.operands t)
    (hcode : k.code = m.code.setOperands t
      ((m.operands t).map (Operand.replace (.block c) (.block d)))) :
    Charted ((k.removeEdge b c).addEdge b d) := by
  have hold : ∀ j, j ≠ t → k.targets j = m.targets j :=
    fun j hj => targets_congr (by rw [hcode]; exact if_neg (Ne.symm hj))
  have hkop := op_of_setOperands hcode
  have hblock : ∀ a, k.code.block a = m.code.block a := fun a => by rw [hcode]; rfl
  have hlines : ∀ a, (k.block a).instrs = (m.block a).instrs :=
    fun a => (lists_of_code (hblock a)).1
  have hk : Orderly k :=
    h.toOrderly.of_view hlines (parent_of_setOperands hcode) fun _ j _ => hkop j
  have hsuccs : ∀ a, k.succs a = m.succs a := fun a => (lists_of_code (hblock a)).2.1
  have hpaired : Paired k := h.paired.of_lists hsuccs fun a => (lists_of_code (hblock a)).2.2
  -- the branch leads where it led, with `d` in place of `c`
  have htargets : ∀ x, x ∈ k.targets t ↔ (x ∈ m.targets t ∧ x ≠ c) ∨ x = d := by
    intro x
    rw [mem_targets,mem_targets,hkop,operands_setOperands_of_code hcode,if_pos rfl]
    simp only [hop,true_and,mem_map,Operand.replace]
    constructor
    · rintro ⟨v,hv,hx⟩
      split at hx
      · exact .inr (Operand.block.inj hx).symm
      · rename_i hne
        subst hx
        exact .inl ⟨hv,fun hxc => hne (by rw [hxc])⟩
    · rintro (⟨hv,hne⟩ | rfl)
      · exact ⟨.block x,hv,if_neg fun hx => hne (Operand.block.inj hx)⟩
      · exact ⟨.block c,hc,if_pos rfl⟩
  obtain ⟨htb,htt⟩ := h.terminator?_iff.mp ht
  have hl := (sameLines_removeEdge k b c).trans (sameLines_addEdge _ b d)
  refine of_paired (hl.orderly hk) ((hpaired.removeEdge b c).addEdge b d) fun a x => ?_
  rw [hl.branches_iff,mem_succs_addEdge,mem_succs_removeEdge,hsuccs,h.succs]
  by_cases ha : a = b
  · subst ha
    have h1 : m.Branches a x ↔ x ∈ m.targets t := by rw [h.branches_iff,ht]; simp
    have h2 : k.Branches a x ↔ x ∈ k.targets t := by
      rw [hk.branches_iff,hk.terminator?_iff.mpr ⟨(hlines a).symm ▸ htb,(hkop t).symm ▸ htt⟩]
      simp
    rw [h1,h2,htargets]
    simp
  · have hat : ∀ j ∈ (m.block a).instrs, j ≠ t := by
      rintro j hj rfl
      exact ha (Option.some.inj (((h.seated a j).mp hj).symm.trans ((h.seated b j).mp htb)))
    simp only [ha,false_and,not_false_eq_true,and_true,or_false,Branches,hlines]
    exact exists_congr fun j => and_congr_right fun hj => by rw [hold j (hat j hj)]

theorem redirect (hn : m.redirect b c d = .ok n) : Charted n := by
  unfold Module.redirect at hn
  split at hn
  · cases hn
  · rename_i term hterm
    split at hn
    · rename_i hc
      obtain rfl := Except.ok.inj hn
      obtain ⟨hterm,hop⟩ := Option.filter_eq_some_iff.mp hterm
      have hcode := code_replaceIn m term (.block c) (.block d)
      generalize m.replaceIn term (.block c) (.block d) = k at hcode ⊢
      exact h.redirected hterm (of_decide_eq_true hop) hc hcode
    · cases hn

/-! Taking instructions out of their blocks. -/

theorem remove (hi : (m.instr i).op.isTerminator = false) (b : BlockId) :
    Charted (m.remove b i) := by
  by_cases hib : i ∈ (m.block b).instrs
  · obtain ⟨hn,hs,hp⟩ := taken_remove hib
    refine of_paired (hn.orderly h.toOrderly hib) (h.paired.of_lists hs hp) fun a c => ?_
    rw [hs,h.succs,hn.branches_iff h.toOrderly hib,
      targets_of_not_br fun hop => by simp [hop,Opcode.isTerminator] at hi]
    simp
  · rw [Module.remove,if_neg hib]
    exact h

theorem detach (hi : (m.instr i).op.isTerminator = false) : Charted (m.detach i) ∧
    ((m.detach i).instr i).parent = none ∧ ((m.detach i).instr i).op = (m.instr i).op := by
  rw [Module.detach]
  split
  · rename_i b hb
    have hn := (taken_remove ((h.seated b i).mpr hb)).1
    exact ⟨h.remove hi b,by rw [hn.parent,if_pos rfl],hn.op i⟩
  · rename_i hb
    exact ⟨h,hb,rfl⟩

theorem moveBefore (hi : (m.instr i).op.isTerminator = false) (j : InstrId) :
    Charted (m.moveBefore i j) := by
  obtain ⟨hd,hparent,hop⟩ := h.detach hi
  rw [moveBefore_eq]
  generalize m.detach i = n at hd hparent hop ⊢
  have hplain : (n.instr i).op.isTerminator = false := hop ▸ hi
  split
  · rename_i b hb
    have hj := (hd.seated b j).mpr hb
    have hn := placed_insertAt n b ((n.block b).instrs.idxOf j) i
    refine hn.charted hd hparent (fun hbr => by simp [hbr,Opcode.isTerminator] at hplain)
      (fun t ht => ?_)
      fun ht => absurd (hplain.symm.trans ht) (by decide)
    -- what leaves the block cannot stand before `j`
    refine eq_false_of_ne_true fun hterm => ?_
    obtain ⟨xs,ys,hs⟩ := append_of_mem ht
    have hnil := hd.last b xs t (ys ++ (n.block b).instrs.drop ((n.block b).instrs.idxOf j))
      (by rw [← cons_append,← append_assoc,← hs,take_append_drop]) hterm
    have hlt := idxOf_lt_length_iff.mpr hj
    have := drop_eq_nil_iff.mp (append_eq_nil_iff.mp hnil).2
    omega
  · exact hd

theorem erase (i : InstrId) : Charted (m.erase i) := by
  rw [erase_eq_cut]
  split
  · rename_i b hb
    have hi := (h.seated b i).mpr hb
    obtain ⟨hl,hp,hs⟩ := removeEdges m b (m.targets i)
    generalize (m.targets i).foldl (fun m t => m.removeEdge b t) m = k at hl hp hs ⊢
    have hcode := code_dropOperands k i
    generalize k.dropOperands i = q at hcode ⊢
    have hblock : ∀ c, q.code.block c = k.code.block c := fun c => by rw [hcode]; rfl
    have hiq : i ∈ (q.block b).instrs := by rwa [(lists_of_code (hblock b)).1,hl.instrs]
    obtain ⟨hn,hsuccs,hpreds⟩ := taken_remove hiq
    have hkm := fun j => congrFun hl.instr j
    -- seen from the start, the instruction is gone and all else is in its place
    have htaken : Taken m (q.remove b i) b i := by
      refine ⟨fun j => ?_,fun j hj => ?_,fun j => ?_,fun c => ?_⟩
      · rw [hn.op,op_of_setOperands hcode,op_of_code (hkm j)]
      · rw [hn.targets j hj,← targets_congr (hkm j)]
        refine targets_congr ?_
        rw [hcode]
        exact if_neg (Ne.symm hj)
      · rw [hn.parent,parent_of_setOperands hcode,parent_of_code (hkm j)]
      · rw [hn.instrs,(lists_of_code (hblock b)).1,(lists_of_code (hblock c)).1,hl.instrs,hl.instrs]
    refine of_paired (htaken.orderly h.toOrderly hi)
      ((hp h.paired).of_lists (fun c => ?_) fun c => ?_) fun a c => ?_
    · rw [hsuccs,(lists_of_code (hblock c)).2.1]
    · rw [hpreds,(lists_of_code (hblock c)).2.2]
    · rw [hsuccs,(lists_of_code (hblock a)).2.1,hs,h.succs,htaken.branches_iff h.toOrderly hi]
  · rename_i hparent
    exact h.setOperands (code_dropOperands m i) fun _ hne => absurd hparent hne

end Charted

end CMinusF.Module
