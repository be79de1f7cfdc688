import CMinusF.Proofs.Flow.ImmediateDominators

/-! The refinement of the dominator tree, point by point: at each the links form a tree that falls
along the numbers, every climb through it ends, links move up only, and there is a last round. -/
namespace CMinusF
open CMinusF.Module List
namespace Dominance
variable {m : Module} {e : BlockId} {order bs : List BlockId} {t : BlockMap (Option BlockId)}

/-- A point of the refinement: the links there are, and the blocks still to come in the round. -/
inductive Underway (m : Module) (e : BlockId) (order : List BlockId) :
    BlockMap (Option BlockId) → List BlockId → Prop where
  | start : Underway m e order (BlockMap.empty.set e (some e)) order.tail
  | keep {t : BlockMap (Option BlockId)} {w : BlockId} {bs : List BlockId} :
      Underway m e order t (w :: bs) →
      t.get w = candidate m (postorderNumbers order) (2 * order.length) t w →
        Underway m e order t bs
  | move {t : BlockMap (Option BlockId)} {w : BlockId} {bs : List BlockId} :
      Underway m e order t (w :: bs) →
      t.get w ≠ candidate m (postorderNumbers order) (2 * order.length) t w →
      Underway m e order (t.set w (candidate m (postorderNumbers order) (2 * order.length) t w)) bs
  | again {t : BlockMap (Option BlockId)} : Underway m e order t [] →
      Underway m e order t order.tail

namespace Underway

theorem refine {pre : List BlockId} (h : Underway m e order t (pre ++ bs)) :
    Underway m e order (refine m (postorderNumbers order) (2 * order.length) pre t).1 bs := by
  induction pre generalizing t with
  | nil => exact h
  | cons w pre ih =>
    rw [Dominance.refine]
    split
    · exact ih (h.keep ‹_›)
    · exact ih (h.move ‹_›)

theorem settle (h : Underway m e order t order.tail) (k : Nat) :
    Underway m e order (settle m (postorderNumbers order) (2 * order.length) order.tail k t)
      order.tail := by
  induction k generalizing t with
  | zero => exact h
  | succ k ih =>
    have hfull : Underway m e order t (order.tail ++ []) := by rwa [append_nil]
    have hround := hfull.refine.again
    rw [Dominance.settle]
    split
    · rename_i hrefine
      exact ih (by rwa [hrefine] at hround)
    · rename_i hrefine
      rwa [hrefine] at hround

theorem exists_round (hr : Ranked m e order (postorderNumbers order)) (hm : Mirrored m e)
    (h : Underway m e order t bs) :
    ∃ t0 pre, order = e :: pre ++ bs ∧ (pre = [] → t0 = t) ∧
      Round m e order (postorderNumbers order) t0 t bs := by
  have hne : ∀ {pre w bs}, order = e :: pre ++ w :: bs → w ≠ e := fun h =>
    hr.ne_of_mem_tail _ (by rw [h]; simp)
  induction h with
  | start => exact ⟨_,[],hr.eq_cons,fun _ => rfl,round_start hr⟩
  | @keep t w bs _ heq ih =>
    obtain ⟨t0,pre,hpre,-,hround⟩ := ih
    refine ⟨t0,pre ++ [w],by simpa using hpre,by simp,hround.set hr hm hpre (hne hpre) fun b => ?_⟩
    split
    · rename_i hb
      rw [← hb,heq]
    · rfl
  | @move t w bs _ _ ih =>
    obtain ⟨t0,pre,hpre,-,hround⟩ := ih
    exact ⟨t0,pre ++ [w],by simpa using hpre,by simp,
      hround.set hr hm hpre (hne hpre) fun b => BlockMap.get_set t w _ b⟩
  | again _ ih =>
    obtain ⟨t0,-,-,-,hround⟩ := ih
    exact ⟨_,[],hr.eq_cons,fun _ => rfl,hround.restart⟩

end Underway

theorem Tree.entry_above {num : BlockMap Nat} (hr : Ranked m e order num)
    (ht : Tree m e order num t) {b : BlockId} (hb : (t.get b).isSome) : Above t e b := by
  have hmeet := (climbs_meet hr ht _ b e hb (by simp [ht.entry]) (Nat.le_refl _)).2
  exact ht.above_entry hmeet.right ▸ hmeet.left

theorem refine_eq_self {num : BlockMap Nat} {k : Nat}
    (h : ∀ w ∈ bs, t.get w = candidate m num k t w) :
    Dominance.refine m num k bs t = (t,false) := by
  induction bs with
  | nil => rfl
  | cons w bs ih =>
    obtain ⟨hw,hbs⟩ := forall_mem_cons.mp h
    rw [Dominance.refine,if_pos hw,ih hbs]

end Dominance

open Dominance

/-- The refinement of the dominator tree of a function that has been checked. At every point of it a
link leads to a block of higher number and on to the entry; so the climb from any two blocks with
links ends, at the nearest block above both; the link that is computed for a block is above the one
it has, and so are the links after a round above those before. The refinement goes from point to
point, whatever part of a round and however many rounds are made; it comes to a tree that a round
leaves as it is, and ends with it. -/
theorem refinement_ends {m : Module} {f : FuncId} {e : BlockId} (hv : m.verify f = .ok ())
    (hl : LaidOut m f) (he : (m.func f).entryBlock? = some e) :
    let order := m.reversePostorder e
    let num := postorderNumbers order
    (∀ t bs, Underway m e order t bs →
      (∀ b c, t.get b = some c → b ≠ e → num.get b < num.get c ∧ Above t e b) ∧
      (∀ b c k, (t.get b).isSome → (t.get c).isSome → 2 * order.length ≤ k →
        Climbs num t b c (meet num t k b c) ∧ IsMeet t b c (meet num t k b c)) ∧
      (∀ w c, bs.head? = some w → t.get w = some c →
        ∃ d, candidate m num (2 * order.length) t w = some d ∧ Above t d c) ∧
      (bs = order.tail → ∀ b c, t.get b = some c → ∃ d,
        (refine m num (2 * order.length) bs t).1.get b = some d ∧
          Above (refine m num (2 * order.length) bs t).1 d c)) ∧
    (∀ t pre bs, Underway m e order t (pre ++ bs) →
      Underway m e order (refine m num (2 * order.length) pre t).1 bs) ∧
    (∀ t k, Underway m e order t order.tail →
      Underway m e order (settle m num (2 * order.length) order.tail k t) order.tail) ∧
    Underway m e order (m.dominators f).idom order.tail ∧
    refine m num (2 * order.length) order.tail (m.dominators f).idom =
      ((m.dominators f).idom,false) := by
  intro order num
  have hG := hl.flowGraph hv he
  have hr : Ranked m e order num := hG.isDominatorTree.ranked
  have hm := hG.reached_mirrored
  refine ⟨fun t bs h => ?_,fun t pre bs h => h.refine,fun t k h => h.settle k,?_,?_⟩
  · obtain ⟨t₀,pre,hpre,hstart,hround⟩ := h.exists_round hr hm
    have ht := hround.tree
    refine ⟨fun b c hc hb => ⟨ht.rank b c hc hb,ht.entry_above hr (by simp [hc])⟩,
      fun b c k hb hc hk =>
      climbs_meet hr ht k b c hb hc (by omega),fun w c hw hc => ?_,fun hbs b c hc => ?_⟩
    · obtain ⟨bs,rfl⟩ := head?_eq_some_iff.mp hw
      have hmem : w ∈ order := by rw [hpre]; simp
      -- blocks of higher number have been visited in this round
      have hlow : ∀ q ∈ order, num.get w < num.get q → q ∉ w :: bs := by
        intro q _ hlt hq
        have hfall := hr.falling
        rw [hpre,pairwise_append] at hfall
        rcases mem_cons.mp hq with rfl | hq
        · exact Nat.lt_irrefl _ hlt
        · exact Nat.lt_asymm hlt ((pairwise_cons.mp hfall.2.1).1 q hq)
      obtain ⟨d,hd,-,-,-,-,-,hup⟩ := hround.exists_candidate hr hm hmem
        (hr.ne_of_mem_tail w (by rw [hpre]; simp)) hlow
      exact ⟨d,hd,hup c hc⟩
    · have hnil : pre = [] := by
        have := congrArg tail hpre
        rw [hbs] at this
        exact self_eq_append_left.mp this
      refine ((hround.refine hr hm (e :: pre) hpre fun b hb => ?_).1.rising b c (hstart hnil ▸ hc))
      exact hr.ne_of_mem_tail b (hbs ▸ hb)
  · rw [hG.idom_eq]
    exact Underway.start.settle _
  · rw [hG.idom_eq]
    exact refine_eq_self (settled_immediate hr hm).2

theorem refinement_ends_crossed : crossed.verify 0 = .ok () ∧ LaidOut crossed 0 ∧
    ∃ t, Underway crossed ⟨0,0⟩ [⟨0,0⟩,⟨0,1⟩,⟨0,2⟩] t [⟨0,2⟩] ∧ Above t ⟨0,0⟩ ⟨0,1⟩ ∧
      IsMeet t ⟨0,0⟩ ⟨0,1⟩ ⟨0,0⟩ := by
  have hv : crossed.verify 0 = .ok () := rfl
  have hl : LaidOut crossed 0 := ⟨by decide,by decide⟩
  obtain ⟨h,-⟩ := refinement_ends hv hl rfl
  have horder : crossed.reversePostorder ⟨0,0⟩ = [⟨0,0⟩,⟨0,1⟩,⟨0,2⟩] := by decide
  rw [horder] at h
  have hpoint : Underway crossed ⟨0,0⟩ [⟨0,0⟩,⟨0,1⟩,⟨0,2⟩] _ [⟨0,2⟩] := .move .start (by decide)
  obtain ⟨hlink,hmeet,-,-⟩ := h _ _ hpoint
  exact ⟨hv,hl,_,hpoint,(hlink ⟨0,1⟩ ⟨0,0⟩ (by decide) (by decide)).2,
    (hmeet ⟨0,0⟩ ⟨0,1⟩ 6 (by decide) (by decide) (by decide)).2⟩

end CMinusF
