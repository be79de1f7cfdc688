import CMinusF.Proofs.Flow.Control
import Mathlib.Data.List.Count

/-! What hoisting keeps of a well-formed function from one edit to the next. -/
namespace CMinusF
open CMinusF.Module List

namespace Hoisting

/-- A phi with values for the blocks `qs`: at most one for each, and one if the block is reached. -/
def Fed (m : Module) (e : BlockId) (p : InstrId) (qs : List BlockId) : Prop :=
  ∃ ps, m.operands p = arms ps ∧ (ps.map (·.2)).Nodup ∧
    (∀ x ∈ ps, x.2 ∈ qs) ∧ ∀ q ∈ qs, m.Reaches e q → q ∈ ps.map (·.2)

/-- A well-formed function, except that the phis `todo` have values for the blocks `old` instead of
the predecessors. -/
structure Sound (m : Module) (f : FuncId) (e : BlockId) (todo : List InstrId)
    (old : List BlockId) : Prop where
  flow : ControlFlow m f e
  mirror : m.Mirror
  nodup : ∀ b ∈ (m.func f).layout, (m.block b).instrs.Nodup
  parent : ∀ b ∈ (m.func f).layout, ∀ i ∈ (m.block b).instrs, (m.instr i).parent = some b
  ordered : ∀ b ∈ (m.func f).layout, (m.block b).instrs.Pairwise fun i j => (m.instr j).op = .phi →
    (m.instr i).op = .phi
  owned : ∀ i ∈ m.instrs f, ∀ v ∈ m.operands i, Owned f v
  home : ∀ i ∈ m.instrs f, ∀ j, .instr j ∈ m.operands i →
    ∃ c, (m.instr j).parent = some c ∧ c.func = f
  valued : ∀ i ∈ m.instrs f, ∀ j, .instr j ∈ m.operands i → (m.instr j).type.isVoid = false
  typed : ∀ i ∈ m.instrs f, (m.instr i).op = .phi → (m.instr i).type.isVoid = false
  load : ∀ i ∈ m.instrs f, (m.instr i).op = .load → ∃ v, m.operands i = [v]
  fed : ∀ b ∈ (m.func f).layout, ∀ p ∈ (m.block b).instrs, (m.instr p).op = .phi →
    Fed m e p (if p ∈ todo then old else m.preds b)
  ssa : SingleAssignment m f e
  /-- An entry that is jumped to is not the only place where its phis get values from. -/
  entry : ∀ q ∈ m.preds e, m.Reaches e q → ∀ p ∈ (m.block e).instrs, (m.instr p).op = .phi →
    ∃ v c, (v,Operand.block c) ∈ m.incoming p ∧ ¬m.Reaches e c

theorem pairwise_of_split {α : Type} {R : α → α → Prop} {l : List α}
    (h : ∀ xs a ys, l = xs ++ a :: ys → ∀ x ∈ xs, R x a) : l.Pairwise R := by
  induction l with
  | nil => exact .nil
  | cons a l ih =>
    refine .cons (fun b hb => ?_) (ih fun xs b ys hs x hx =>
      h (a :: xs) b ys (by rw [hs]; rfl) x (mem_cons_of_mem _ hx))
    obtain ⟨s,t,rfl⟩ := append_of_mem hb
    exact h (a :: s) b t rfl a mem_cons_self

section
variable {m : Module} {f : FuncId} {e b c : BlockId} {i j p : InstrId}
  {ps : List (Operand × BlockId)} {qs : List BlockId}

theorem mem_operands_pairs {v : Operand} (ho : m.operands p = arms ps) :
    v ∈ m.operands p ↔ ∃ x ∈ ps, v = x.1 ∨ v = .block x.2 := by
  rw [ho,mem_flatMap]
  simp

theorem mem_incoming_pairs {v w : Operand} (ho : m.operands p = arms ps) :
    (v,w) ∈ m.incoming p ↔ ∃ x ∈ ps, v = x.1 ∧ w = .block x.2 := by
  rw [incoming,ho,pairs_flatMap,mem_map]
  grind

theorem Fed.label (h : Fed m e p qs) {v : Operand} (hv : (v,.block c) ∈ m.incoming p) : c ∈ qs := by
  obtain ⟨ps,ho,_,hqs,_⟩ := h
  obtain ⟨x,hx,_,hc⟩ := (mem_incoming_pairs ho).mp hv
  rw [Operand.block.inj hc]
  exact hqs x hx

theorem Fed.count (h : Fed m e p qs) (hc : c ∈ qs) (hr : m.Reaches e c) :
    ((m.incoming p).map (·.2)).count (.block c) = 1 := by
  obtain ⟨ps,ho,hnd,_,hall⟩ := h
  rw [incoming_of_operands ho,count_map_of_injective _ _ fun _ _ => Operand.block.inj]
  exact count_eq_one_of_mem hnd (hall c hc hr)

namespace Sound
variable {todo : List InstrId} {old : List BlockId}

theorem mem_instrs (h : Sound m f e todo old) (hb : m.Reaches e b) (hi : i ∈ (m.block b).instrs) :
    i ∈ m.instrs f :=
  mem_instrs_iff.mpr ⟨b,h.flow.mem_layout hb,hi⟩

theorem block_unique (h : Sound m f e todo old) (hb : b ∈ (m.func f).layout)
    (hc : c ∈ (m.func f).layout) (hib : i ∈ (m.block b).instrs)
    (hic : i ∈ (m.block c).instrs) : b = c :=
  Option.some.inj ((h.parent b hb i hib).symm.trans (h.parent c hc i hic))

theorem checked (h : Sound m f e [] old) (hb : b ∈ (m.func f).layout) {xs ys : List InstrId}
    (hs : (m.block b).instrs = xs ++ i :: ys) : m.Checked f b xs i ys := by
  have hib : i ∈ (m.block b).instrs := hs ▸ by simp
  have hi := mem_instrs_iff.mpr ⟨b,hb,hib⟩
  obtain ⟨t,ht,_⟩ := h.flow.ends b hb
  refine ⟨h.parent b hb i hib,ht.post_eq_nil hs,fun hop k hk => ?_,fun hop => ?_,fun hvoid => ?_,
    fun v hv => ?_⟩
  · have := h.ordered b hb
    grind
  · obtain ⟨ps,ho,hnd,hps,_⟩ := h.fed b hb i hib hop
    exact ⟨ps,ho,hnd,hps⟩
  · -- a user would need a value
    by_contra hne
    obtain ⟨u,hu⟩ := exists_mem_of_ne_nil _ hne
    have := h.valued u (h.ssa.linked i hi u hu) i ((h.mirror.mem_uses_iff (by simp) u).mp hu)
    rw [hvoid] at this
    cases this
  · refine operandDefect?_eq_none_iff.mpr ⟨h.owned i hi v hv,?_⟩
    rintro j rfl
    exact ⟨h.home i hi j hv,h.valued i hi j hv⟩

theorem wellFormed (h : Sound m f e [] old) : WellFormed m f := by
  have hentry : ∀ e', (m.func f).layout.head? = some e' → e' = e := fun e' he' =>
    Option.some.inj (he'.symm.trans h.flow.entry)
  refine ⟨h.flow.verify fun b hb _ _ _ hs => h.checked hb hs,fun e' he' => hentry e' he' ▸ h.ssa,
    fun e' he' b hb p hp hop q hq hqr => ?_⟩
  rw [hentry e' he'] at hb hqr
  have := h.fed b (h.flow.mem_layout hb) p hp hop
  exact this.count hq hqr

theorem of_wellFormed (hr : Regular m f) (hw : WellFormed m f) (hC : ControlFlow m f e)
    (htyped : ∀ i ∈ m.instrs f, (m.instr i).op = .phi → (m.instr i).type.isVoid = false)
    (hload : ∀ i ∈ m.instrs f, (m.instr i).op = .load → ∃ v, m.operands i = [v])
    (hentry : ∀ q ∈ m.preds e, m.Reaches e q → ∀ p ∈ (m.block e).instrs, (m.instr p).op = .phi →
      ∃ v c, (v,Operand.block c) ∈ m.incoming p ∧ ¬m.Reaches e c) : Sound m f e [] [] := by
  have hchecked : ∀ b ∈ (m.func f).layout, ∀ i ∈ (m.block b).instrs, ∃ xs ys,
      m.Checked f b xs i ys := by
    intro b hb i hi
    obtain ⟨xs,ys,hs⟩ := append_of_mem hi
    exact ⟨xs,ys,(blockChecked hw.verified hb).instr xs i ys hs⟩
  have hoperand : ∀ i ∈ m.instrs f, ∀ j, .instr j ∈ m.operands i →
      (∃ c, (m.instr j).parent = some c ∧ c.func = f) ∧ (m.instr j).type.isVoid = false := by
    intro i hi j hj
    obtain ⟨b,hb,hib⟩ := mem_instrs_iff.mp hi
    obtain ⟨xs,ys,hc⟩ := hchecked b hb i hib
    exact (operandDefect?_eq_none_iff.mp (hc.operand _ hj)).2 j rfl
  refine ⟨hC,hr.mirror,hr.nodup,fun b hb i hi => ?_,fun b hb => ?_,
    fun i hi v hv => owned_of_verify hw.verified hi hv,
    fun i hi j hj => (hoperand i hi j hj).1,fun i hi j hj => (hoperand i hi j hj).2,htyped,hload,
    fun b hb p hp hop => ?_,hw.ssa e hC.entry,hentry⟩
  · obtain ⟨xs,ys,hc⟩ := hchecked b hb i hi
    exact hc.parent
  · exact pairwise_of_split fun xs i ys hs k hk hop =>
      ((blockChecked hw.verified hb).instr xs i ys hs).phi hop k hk
  · obtain ⟨xs,ys,hc⟩ := hchecked b hb p hp
    obtain ⟨ps,ho,hnd,hps⟩ := hc.pairs hop
    refine ⟨ps,ho,hnd,by rwa [if_neg not_mem_nil],fun q hq hqr => ?_⟩
    rw [if_neg not_mem_nil] at hq
    -- a block that a reached one leads to is reached
    have hbr := hqr.step ((hC.mem_preds_iff hb).mp hq).2
    have := hw.complete e hC.entry b hbr p hp hop q hq hqr
    rw [incoming_of_operands ho,count_map_of_injective _ _ fun _ _ => Operand.block.inj] at this
    exact count_pos_iff.mp (by omega)

end Sound
end
end Hoisting
end CMinusF
