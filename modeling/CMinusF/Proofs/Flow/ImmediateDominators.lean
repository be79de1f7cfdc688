import CMinusF.Proofs.Flow.Control
import CMinusF.Proofs.Flow.Numbering

/-! What the analysis of dominators answers is what holds of all trails through a function that has
been checked. -/
namespace CMinusF
open CMinusF.Module
variable {m : Module} {f : FuncId} {e a b : BlockId}

/-- The blocks made for a function stand in its layout, each once. -/
structure LaidOut (m : Module) (f : FuncId) : Prop where
  nodup : (m.func f).layout.Nodup
  listed : ∀ n, n < (m.func f).blocks.size → (⟨f,n⟩ : BlockId) ∈ (m.func f).layout

theorem LaidOut.flowGraph (h : LaidOut m f) (hv : m.verify f = .ok ())
    (he : (m.func f).entryBlock? = some e) : FlowGraph m f e := .of_verify hv he h.nodup h.listed

/-- A block that dominates another one and is dominated by all others that do. -/
structure Module.ImmediatelyDominates (m : Module) (e a b : BlockId) : Prop where
  ne : a ≠ b
  dominates : m.Dominates e a b
  nearest : ∀ c, c ≠ b → m.Dominates e c b → m.Dominates e c a

theorem Module.ImmediatelyDominates.unique {a' : BlockId} (h : m.ImmediatelyDominates e a b)
    (h' : m.ImmediatelyDominates e a' b) (hb : m.Reaches e b) : a' = a :=
  (h.nearest a' h'.ne h'.dominates).antisymm (h'.nearest a h.ne h.dominates)
    (h.dominates.reaches hb)

namespace FlowGraph

variable (h : FlowGraph m f e)
include h

theorem idom?_eq (b : BlockId) :
    (m.dominators f).idom? m b = if b = e then none else (m.dominators f).idom.get b := by
  have hf : (m.dominators f).func = f := by
    unfold dominators
    rw [h.layout_eq]
  have he : (m.func f).entryBlock? = some e := h.entry
  simp only [Dominance.idom?,Dominance.parentIn,hf,he,Option.some.injEq]

theorem immediatelyDominates (hb : b ≠ e) (ha : (m.dominators f).idom.get b = some a) :
    m.ImmediatelyDominates e a b := by
  have ht := h.isDominatorTree
  have hr : m.Reaches e b := (ht.isSome_iff b).mp (by rw [ha]; rfl)
  refine ⟨?_,ht.dominates_of_above (.up ha .refl),fun c hcb hc => ?_⟩
  · rintro rfl
    exact Nat.lt_irrefl _ (ht.tree.rank a a ha hb)
  · -- what is above the block and is not the block is above its link
    cases ht.dominators b c hr hc with
    | refl => exact absurd rfl hcb
    | up hlink habove =>
      obtain rfl := Option.some.inj (ha.symm.trans hlink)
      exact ht.dominates_of_above habove

theorem exists_idom? (hr : m.Reaches e b) (hb : b ≠ e) :
    ∃ a, (m.dominators f).idom? m b = some a ∧ m.ImmediatelyDominates e a b := by
  obtain ⟨a,ha⟩ := Option.isSome_iff_exists.mp ((h.isDominatorTree.isSome_iff b).mpr hr)
  exact ⟨a,by rw [h.idom?_eq,if_neg hb,ha],h.immediatelyDominates hb ha⟩

theorem idom?_eq_none_iff : (m.dominators f).idom? m b = none ↔ b = e ∨ ¬m.Reaches e b := by
  rw [h.idom?_eq,← h.isDominatorTree.isSome_iff]
  by_cases hb : b = e <;> simp [hb]

theorem children_eq_filter (a : BlockId) : (m.dominators f).children.get a =
    (m.func f).layout.filter fun b => (m.dominators f).idom? m b = some a := by
  rw [h.children_eq]
  refine List.filter_congr fun b _ => ?_
  rw [h.idom?_eq,Dominance.parentIn]
  simp only [Option.some.injEq]

/-- The frontier of a block is where its dominance ends: it dominates a predecessor, but not
strictly the block. -/
theorem mem_frontier_iff_dominates (hb : b ≠ e) : b ∈ (m.dominators f).frontier a ↔
    m.Reaches e a ∧ m.Reaches e b ∧
    (∃ p ∈ m.preds b, m.Reaches e p ∧ m.Dominates e a p) ∧ ¬(a ≠ b ∧ m.Dominates e a b) := by
  have ht := h.isDominatorTree
  by_cases hr : m.Reaches e b
  · obtain ⟨d,hd⟩ := Option.isSome_iff_exists.mp ((ht.isSome_iff b).mpr hr)
    have himm := h.immediatelyDominates hb hd
    have hedge : ∀ p, m.Reaches e p → (b ∈ m.succs p ↔ p ∈ m.preds b) :=
      fun p hp => (h.mirrored p (h.mem_layout hp) b (h.mem_layout hr)).symm
    rw [h.mem_frontier_iff_above hb hd]
    constructor
    · rintro ⟨q,hq,hbq,haq,hda,hne⟩
      have hdom := ht.dominates_of_above haq
      refine ⟨hdom.reaches hq,hr,⟨q,(hedge q hq).mp hbq,hq,hdom⟩,fun ⟨hab,hdab⟩ => hne ?_⟩
      have had := ht.dominators d a (himm.dominates.reaches hr) (himm.nearest a hab hdab)
      exact ht.tree.antisymm had hda
    · rintro ⟨-,-,⟨q,hqb,hq,hdom⟩,hnot⟩
      have haq := ht.dominators q a hq hdom
      have hnd : ¬Dominance.Above (m.dominators f).idom a d := by
        intro had
        refine hnot ⟨?_,(ht.dominates_of_above had).trans himm.dominates⟩
        rintro rfl
        exact himm.ne (himm.dominates.antisymm (ht.dominates_of_above had) hr)
      refine ⟨q,hq,(hedge q hq).mpr hqb,haq,
        (haq.total (ht.pred b d q hd hb hq ((hedge q hq).mpr hqb))).resolve_left hnd,?_⟩
      rintro rfl
      exact hnd .refl
  · exact iff_of_false (fun hm => hr (h.of_mem_frontier hm).2.1) fun hm => hr hm.2.1

end FlowGraph

theorem Module.reachable_of_empty (h : (m.func f).layout = []) (b : BlockId) :
    (m.dominators f).reachable b = false := by
  unfold dominators
  rw [h]
  exact congrArg Option.isSome (BlockMap.get_empty b)

/-- In a function that has been checked the analysis knows which blocks are reached, which dominate
which, and which immediately. -/
theorem dominators_exact {m : Module} {f : FuncId} (hv : m.verify f = .ok ()) (hl : LaidOut m f) :
    (∀ b, (m.dominators f).reachable b = true ↔ ∃ e, (m.func f).entryBlock? = some e ∧
      m.Reaches e b) ∧
    ∀ e, (m.func f).entryBlock? = some e →
      (∀ a b, m.Reaches e a → m.Reaches e b →
        ((m.dominators f).dominates a b = true ↔ m.Dominates e a b)) ∧
      (∀ b, m.Reaches e b → b ≠ e → ∃ a, (m.dominators f).idom? m b = some a ∧
        m.ImmediatelyDominates e a b ∧
        ∀ c, m.ImmediatelyDominates e c b → c = a) ∧
      (∀ b, (m.dominators f).idom? m b = none ↔ b = e ∨ ¬m.Reaches e b) ∧
      ∀ a, (m.dominators f).children.get a =
        (m.func f).layout.filter fun b => (m.dominators f).idom? m b = some a := by
  refine ⟨fun b => ?_,fun e he => ?_⟩
  · cases he : (m.func f).entryBlock? with
    | none => simp [reachable_of_empty (List.head?_eq_none_iff.mp he)]
    | some e => simp [(hl.flowGraph hv he).reachable_iff]
  · have hG := hl.flowGraph hv he
    refine ⟨fun a b _ hb => hG.dominates_iff hb,fun b hb hne => ?_,fun b => hG.idom?_eq_none_iff,
      hG.children_eq_filter⟩
    obtain ⟨a,ha,hab⟩ := hG.exists_idom? hb hne
    exact ⟨a,ha,hab,fun c hc => hab.unique hc hb⟩

/-- A loop that can be entered at two blocks, a way back to the entry, and a block that nothing
leads to. -/
def crossed : Module :=
  let b (n : Nat) : BlockId := ⟨0,n⟩
  { name := "crossed", globals := [], funcs := [0], globalTable := .empty
    funcTable := ⟨#[⟨"main",.void,[],[b 0,b 1,b 2,b 3],⟨#[
      ⟨"entry",[0],[b 1],[b 1,b 2],[1]⟩,⟨"left",[1],[b 0,b 2,b 3],[b 2,b 0],[0,2,3]⟩,
      ⟨"right",[2],[b 0,b 1],[b 1],[0,1]⟩,⟨"lost",[3],[],[b 1],[]⟩]⟩,0,.empty,[]⟩]⟩
    instrTable := ⟨#[
      ⟨.br,.void,none,none,[.literal 0,.block (b 1),.block (b 2)],some (b 0),[]⟩,
      ⟨.br,.void,none,none,[.literal 0,.block (b 2),.block (b 0)],some (b 1),[]⟩,
      ⟨.br,.void,none,none,[.block (b 1)],some (b 2),[]⟩,
      ⟨.br,.void,none,none,[.block (b 1)],some (b 3),[]⟩]⟩
    literalTable := ⟨#[⟨.int 0,[0,1]⟩]⟩ }

theorem dominators_exact_crossed : crossed.verify 0 = .ok () ∧ LaidOut crossed 0 ∧
    ¬crossed.Reaches ⟨0,0⟩ ⟨0,3⟩ ∧
    ¬crossed.Dominates ⟨0,0⟩ ⟨0,1⟩ ⟨0,2⟩ ∧ crossed.ImmediatelyDominates ⟨0,0⟩ ⟨0,0⟩ ⟨0,2⟩ ∧
    (crossed.dominators 0).children.get ⟨0,0⟩ = [⟨0,1⟩,⟨0,2⟩] := by
  have hv : crossed.verify 0 = .ok () := rfl
  have hl : LaidOut crossed 0 := ⟨by decide,by decide⟩
  obtain ⟨hreach,hrest⟩ := dominators_exact hv hl
  obtain ⟨hdom,hidom,_,hchildren⟩ := hrest ⟨0,0⟩ rfl
  have h₁ : crossed.Reaches ⟨0,0⟩ ⟨0,1⟩ := .step (.refl crossed ⟨0,0⟩) (by decide)
  have h₂ : crossed.Reaches ⟨0,0⟩ ⟨0,2⟩ := .step (.refl crossed ⟨0,0⟩) (by decide)
  refine ⟨hv,hl,fun h => ?_,fun h => ?_,?_,?_⟩
  · have := (hreach ⟨0,3⟩).mpr ⟨⟨0,0⟩,rfl,h⟩
    revert this
    decide
  · have := (hdom _ _ h₁ h₂).mpr h
    revert this
    decide
  · obtain ⟨a,ha,hab,_⟩ := hidom ⟨0,2⟩ h₂ (by decide)
    have : (crossed.dominators 0).idom? crossed ⟨0,2⟩ = some ⟨0,0⟩ := by decide
    exact Option.some.inj (ha.symm.trans this) ▸ hab
  · rw [hchildren]
    decide

/-- In a function that has been checked the frontier of a block holds the blocks, by ascending
number, with a reached predecessor that it dominates and that it does not strictly dominate
themselves. -/
theorem frontiers_exact {m : Module} {f : FuncId} {e : BlockId} (hv : m.verify f = .ok ())
    (hl : LaidOut m f) (he : (m.func f).entryBlock? = some e) (x : BlockId) :
    (∀ y, y ≠ e → (y ∈ (m.dominators f).frontier x ↔ m.Reaches e x ∧ m.Reaches e y ∧
      (∃ p ∈ m.preds y, m.Reaches e p ∧ m.Dominates e x p) ∧ ¬(x ≠ y ∧ m.Dominates e x y))) ∧
    ((m.dominators f).frontier x).Pairwise fun y z => y.number < z.number :=
  have hG := hl.flowGraph hv he
  ⟨fun _ hy => hG.mem_frontier_iff_dominates hy,hG.pairwise_frontier x⟩

theorem frontiers_exact_crossed : crossed.verify 0 = .ok () ∧ LaidOut crossed 0 ∧
    (crossed.dominators 0).frontier ⟨0,1⟩ = [⟨0,2⟩] ∧
    (∃ p ∈ crossed.preds ⟨0,2⟩, crossed.Reaches ⟨0,0⟩ p ∧ crossed.Dominates ⟨0,0⟩ ⟨0,1⟩ p) ∧
      ¬crossed.Dominates ⟨0,0⟩ ⟨0,1⟩ ⟨0,2⟩ := by
  have hv : crossed.verify 0 = .ok () := rfl
  have hl : LaidOut crossed 0 := ⟨by decide,by decide⟩
  have h := (frontiers_exact hv hl rfl ⟨0,1⟩).1 ⟨0,2⟩ (by decide)
  obtain ⟨-,-,hpred,hnot⟩ := h.mp (by decide)
  exact ⟨hv,hl,by decide,hpred,fun hd => hnot ⟨by decide,hd⟩⟩

end CMinusF
