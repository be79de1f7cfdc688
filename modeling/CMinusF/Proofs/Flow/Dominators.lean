import CMinusF.Proofs.Flow.DominatorTree
import Mathlib.Data.List.Perm.Subperm

/-! The dominators of a function: the tree of immediate dominators, its children lists, and the
dominance frontiers as far as the placing of phis needs them. -/
namespace CMinusF
open CMinusF.Module List
variable {m : Module} {f : FuncId} {e b c x s r : BlockId} {k : Nat} {order : List BlockId}
  {idom : BlockMap (Option BlockId)}

/-- The blocks of a function and the edges between them, as all analyses expect them. -/
structure FlowGraph (m : Module) (f : FuncId) (e : BlockId) : Prop where
  entry : (m.func f).layout.head? = some e
  owned : ∀ b ∈ (m.func f).layout, b.func = f
  nodup : (m.func f).layout.Nodup
  sized : ∀ b ∈ (m.func f).layout, b.number < (m.func f).blocks.size
  closed : ∀ b ∈ (m.func f).layout, ∀ c ∈ m.succs b, c ∈ (m.func f).layout
  mirrored : ∀ b ∈ (m.func f).layout, ∀ c ∈ (m.func f).layout, b ∈ m.preds c ↔ c ∈ m.succs b

namespace FlowGraph

theorem entry_mem (h : FlowGraph m f e) : e ∈ (m.func f).layout :=
  mem_of_mem_head? (by simp [h.entry])

theorem mem_layout (h : FlowGraph m f e) (hb : m.Reaches e b) : b ∈ (m.func f).layout :=
  hb.induction (P := (· ∈ (m.func f).layout)) h.entry_mem fun b c _ hb hc => h.closed b hb c hc

theorem eq_of_number (h : FlowGraph m f e) (hb : b ∈ (m.func f).layout) (hc : c ∈ (m.func f).layout)
    (hn : b.number = c.number) : b = c := by
  have hfb := h.owned b hb
  have hfc := h.owned c hc
  obtain ⟨bf,bn⟩ := b
  obtain ⟨cf,cn⟩ := c
  simp_all

end FlowGraph

theorem blocks_size_le_blockCount (m : Module) (f : FuncId) :
    (m.func f).blocks.size ≤ m.blockCount := by
  have hacc : ∀ (fs : List Func) (n : Nat), n ≤ fs.foldl (fun n f => n + f.blocks.size) n := by
    intro fs
    induction fs with
    | nil => exact fun n => Nat.le_refl n
    | cons g fs ih => exact fun n => Nat.le_trans (Nat.le_add_right _ _) (ih _)
  have hmem : ∀ (fs : List Func) (n : Nat), ∀ g ∈ fs, g.blocks.size ≤
      fs.foldl (fun n f => n + f.blocks.size) n := by
    intro fs
    induction fs with
    | nil => simp
    | cons g fs ih =>
      intro n x hx
      rcases mem_cons.mp hx with rfl | hx
      · exact Nat.le_trans (Nat.le_add_left _ _) (hacc fs _)
      · exact ih _ x hx
  rw [blockCount,← Array.foldl_toList]
  by_cases hf : f < m.funcTable.rows.size
  · refine hmem _ 0 _ ?_
    rw [func,Table.get,Array.getD_eq_getD_getElem?,Array.getElem?_eq_getElem hf]
    exact Array.getElem_mem_toList hf
  · rw [func,Table.get_of_size_le _ (Nat.not_lt.mp hf)]
    exact Nat.zero_le _

/-- The numbers of the blocks are distinct and in the range of the table. -/
theorem FlowGraph.numbers_subperm (h : FlowGraph m f e) :
    (m.func f).layout.map BlockId.number <+~ range (m.func f).blocks.size := by
  have hnd : ((m.func f).layout.map BlockId.number).Nodup := by
    rw [nodup_map_iff_inj_on h.nodup]
    exact fun b hb c hc hn => h.eq_of_number hb hc hn
  have hsub : (m.func f).layout.map BlockId.number ⊆ range (m.func f).blocks.size := by
    intro n hn
    obtain ⟨b,hb,rfl⟩ := mem_map.mp hn
    exact mem_range.mpr (h.sized b hb)
  exact hnd.subperm hsub

theorem FlowGraph.length_layout (h : FlowGraph m f e) :
    (m.func f).layout.length ≤ m.blockCount := by
  have := h.numbers_subperm.length_le
  rw [length_map,length_range] at this
  exact this.trans (blocks_size_le_blockCount m f)

namespace FlowGraph
open Dominance
variable {a p : BlockId}

theorem layout_eq (h : FlowGraph m f e) : (m.func f).layout = e :: (m.func f).layout.tail :=
  (cons_head?_tail h.entry).symm

theorem reached_mirrored (h : FlowGraph m f e) : Mirrored m e := fun a b ha hb =>
  h.mirrored a (h.mem_layout ha) b (h.mem_layout hb)

theorem idom_eq (h : FlowGraph m f e) :
    (m.dominators f).idom = immediate m e (m.reversePostorder e) := by
  unfold dominators
  rw [h.layout_eq]

theorem isDominatorTree (h : FlowGraph m f e) :
    IsDominatorTree m e (m.reversePostorder e) (m.dominators f).idom := by
  rw [h.idom_eq]
  exact isDominatorTree_immediate (isOrder_reversePostorder h.closed h.entry_mem h.length_layout)
    h.reached_mirrored

theorem reachable_iff (h : FlowGraph m f e) : (m.dominators f).reachable b = true ↔ m.Reaches e b :=
  h.isDominatorTree.isSome_iff b

theorem above_entry_iff (h : FlowGraph m f e) :
    Above (m.dominators f).idom e b ↔ m.Reaches e b := by
  refine ⟨fun hb => ?_,fun hb => h.isDominatorTree.dominators b e hb (.entry m e b)⟩
  cases hb with
  | refl => exact .refl m e
  | up hc _ => exact (h.isDominatorTree.isSome_iff b).mp (by simp [hc])

theorem entry_number_lt (h : FlowGraph m f e) :
    (postorderNumbers (m.reversePostorder e)).get e < m.blockCount + 1 := by
  have ho := h.isDominatorTree.ranked
  have hsub : m.reversePostorder e ⊆ (m.func f).layout :=
    fun b hb => h.mem_layout ((ho.mem_iff b).mp hb)
  have hlen := Nat.le_trans (ho.nodup.subperm hsub).length_le h.length_layout
  exact Nat.lt_succ_of_le (Nat.le_trans (Nat.le_of_lt (ho.bound e ho.entry_mem)) hlen)

/-! Children. -/

theorem get_foldl_modify (parent : BlockId → Option BlockId) (l : List BlockId)
    (t : BlockMap (List BlockId)) (p : BlockId) : (l.foldl (fun t b =>
      match parent b with
      | none => t
      | some p =>
        t.modify p (· ++ [b])) t).get p = t.get p ++ l.filter fun b => parent b = some p := by
  induction l generalizing t with
  | nil => simp
  | cons b l ih =>
    rw [foldl_cons,ih]
    cases hb : parent b with
    | none => simp [hb]
    | some q =>
      rw [BlockMap.get_modify]
      by_cases hq : q = p <;> simp [hb,hq]

section
variable (h : FlowGraph m f e)
include h

theorem children_eq (p : BlockId) : (m.dominators f).children.get p =
    (m.func f).layout.filter fun b => parentIn (some e) (m.dominators f).idom b = some p := by
  have hl := h.layout_eq
  unfold dominators
  rw [hl]
  exact (get_foldl_modify _ _ _ _).trans (by rw [BlockMap.get_empty]; rfl)

/-- The children of a block are the blocks it is the immediate dominator of. -/
theorem mem_children_iff :
    c ∈ (m.dominators f).children.get p ↔ c ≠ e ∧ (m.dominators f).idom.get c = some p := by
  rw [h.children_eq,mem_filter]
  simp only [parentIn,Option.some.injEq,decide_eq_true_eq]
  constructor
  · simp
  · rintro ⟨hne,hc⟩
    refine ⟨h.mem_layout ((h.isDominatorTree.isSome_iff c).mp (by simp [hc])),?_⟩
    rw [if_neg hne]
    exact hc

theorem children_nodup : ((m.dominators f).children.get p).Nodup := by
  rw [h.children_eq]
  exact h.nodup.filter _

/-! Subtrees. -/

theorem exists_child (hx : Above (m.dominators f).idom b x) (hne : b ≠ x) :
    ∃ c ∈ (m.dominators f).children.get b, Above (m.dominators f).idom c x := by
  have ht := h.isDominatorTree
  induction hx with
  | refl => exact absurd rfl hne
  | @up x y hy hby ih =>
    by_cases hyb : b = y
    · subst hyb
      refine ⟨x,h.mem_children_iff.mpr ⟨?_,hy⟩,.refl⟩
      rintro rfl
      rw [ht.tree.entry,Option.some.injEq] at hy
      exact hne hy.symm
    · obtain ⟨c,hc,hcy⟩ := ih hyb
      exact ⟨c,hc,.up hy hcy⟩

theorem child_lt (hc : c ∈ (m.dominators f).children.get b) :
    (postorderNumbers (m.reversePostorder e)).get c <
      (postorderNumbers (m.reversePostorder e)).get b := by
  obtain ⟨hce,hcb⟩ := h.mem_children_iff.mp hc
  exact h.isDominatorTree.tree.rank c b hcb hce

theorem disjoint_children {c' : BlockId}
    (hc : c ∈ (m.dominators f).children.get b) (hc' : c' ∈ (m.dominators f).children.get b)
    (hne : c ≠ c') (hx : Above (m.dominators f).idom c x) : ¬Above (m.dominators f).idom c' x := by
  have ht := h.isDominatorTree.tree
  have key : ∀ d d', d ∈ (m.dominators f).children.get b →
    d' ∈ (m.dominators f).children.get b → d ≠ d' →
      ¬Above (m.dominators f).idom d d' := by
    intro d d' hd hd' hdd ha
    obtain ⟨y,hy,hdy⟩ := ha.of_ne hdd
    rw [(h.mem_children_iff.mp hd').2,Option.some.injEq] at hy
    subst hy
    have h1 := ht.rank_le hdy
    have h2 := h.child_lt hd
    omega
  intro hx'
  rcases hx.total hx' with ha | ha
  · exact key c c' hc hc' hne ha
  · exact key c' c hc' hc (Ne.symm hne) ha

end

/-! Frontiers. -/

theorem mem_insertNumber (n k : Nat) (l : List Nat) : k ∈ insertNumber n l ↔ k = n ∨ k ∈ l := by
  induction l with
  | nil => simp [insertNumber]
  | cons x l ih =>
    rw [insertNumber]
    split
    · simp
    · split <;> (simp_all; try tauto)

theorem pairwise_insertNumber (n : Nat) {l : List Nat} (h : l.Pairwise (· < ·)) :
    (insertNumber n l).Pairwise (· < ·) := by
  induction l with
  | nil => simp [insertNumber]
  | cons x l ih =>
    obtain ⟨hx,hl⟩ := pairwise_cons.mp h
    rw [insertNumber]
    split
    · rename_i hn
      exact pairwise_cons.mpr ⟨forall_mem_cons.mpr ⟨hn,fun y hy => Nat.lt_trans hn (hx y hy)⟩,h⟩
    · split
      · exact h
      · refine pairwise_cons.mpr ⟨fun y hy => ?_,ih hl⟩
        rcases (mem_insertNumber n y l).mp hy with rfl | hy
        · omega
        · exact hx y hy

def climbed (parent : BlockId → Option BlockId) (stop : Option BlockId) : Nat → Option BlockId →
    List BlockId
  | 0, _ => []
  | _, none => []
  | n+1, some b => if some b = stop then [] else b :: climbed parent stop n (parent b)

def enterNumber (t : BlockMap (List Nat)) (x : BlockId × Nat) : BlockMap (List Nat) :=
  t.modify x.1 (insertNumber x.2)

theorem climbFrontier_eq (parent : BlockId → Option BlockId) (stop : Option BlockId)
    (number n : Nat) (r : Option BlockId) (t : BlockMap (List Nat)) :
    climbFrontier parent stop number n r t =
      ((climbed parent stop n r).map (·,number)).foldl enterNumber t := by
  fun_induction climbFrontier parent stop number n r t with
  | case1 => simp [climbed]
  | case2 => simp [climbed]
  | case3 n r t hs => simp [climbed,hs]
  | case4 n r t hs ih => simp [climbed,hs,ih,enterNumber]

theorem mem_foldl_enterNumber (es : List (BlockId × Nat)) (t : BlockMap (List Nat)) :
    k ∈ (es.foldl enterNumber t).get x ↔ k ∈ t.get x ∨ (x,k) ∈ es := by
  induction es generalizing t with
  | nil => simp
  | cons p es ih =>
    obtain ⟨y,n⟩ := p
    rw [foldl_cons,ih,enterNumber,BlockMap.get_modify,mem_cons,Prod.mk.injEq,← or_assoc]
    refine or_congr_left ?_
    split
    · rename_i hy
      subst hy
      rw [mem_insertNumber]
      simp [or_comm]
    · rename_i hy
      simp [Ne.symm hy]

theorem pairwise_foldl_enterNumber (es : List (BlockId × Nat)) (t : BlockMap (List Nat))
    (h : ∀ x, (t.get x).Pairwise (· < ·)) (x : BlockId) :
    ((es.foldl enterNumber t).get x).Pairwise (· < ·) := by
  induction es generalizing t with
  | nil => exact h x
  | cons p es ih =>
    refine ih _ fun y => ?_
    rw [enterNumber,BlockMap.get_modify]
    split
    · exact pairwise_insertNumber _ (h _)
    · exact h y

theorem mem_climbed_iff (ht : IsDominatorTree m e order idom)
    {stop : BlockId} (n : Nat) (q : BlockId) (hs : Above idom stop q) (hq : (idom.get q).isSome)
    (hn : order.length - (postorderNumbers order).get q < n) :
    x ∈ climbed (parentIn (some e) idom) (some stop) n (some q) ↔
    Above idom x q ∧ Above idom stop x ∧ x ≠ stop := by
  induction n generalizing q with
  | zero => omega
  | succ n ih =>
    rw [climbed]
    split
    · rename_i hstop
      cases hstop
      exact iff_of_false not_mem_nil fun ⟨h1,h2,h3⟩ => h3 (ht.tree.antisymm h1 h2)
    · rename_i hstop
      have hne : stop ≠ q := fun h => hstop (by rw [h])
      have hqe : q ≠ e := fun h => hne ((ht.tree.above_entry (h ▸ hs)).trans h.symm)
      obtain ⟨r,hr,hsr⟩ := hs.of_ne hne
      have hp : parentIn (some e) idom q = some r := by rw [parentIn,if_neg (by simpa using hqe),hr]
      have hlt := ht.tree.rank q r hr hqe
      have hb := ht.ranked.bound q (ht.tree.mem_of_isSome hq)
      have hih := ih r hsr (ht.tree.mem q r hr).2 (by omega)
      rw [hp,mem_cons,hih]
      constructor
      · rintro (rfl | ⟨hx,hsx⟩)
        · exact ⟨.refl,hs,Ne.symm hne⟩
        · exact ⟨.up hr hx,hsx⟩
      · rintro ⟨hx,hsx⟩
        by_cases hxq : x = q
        · exact .inl hxq
        · obtain ⟨r',hr',hx'⟩ := hx.of_ne hxq
          cases hr.symm.trans hr'
          exact .inr ⟨hx',hsx⟩

def reachedPreds (m : Module) (idom : BlockMap (Option BlockId)) (b : BlockId) : List BlockId :=
  (m.preds b).filter fun p => (idom.get p).isSome

def joins (m : Module) (parent : BlockId → Option BlockId) (climb : Nat)
    (idom : BlockMap (Option BlockId)) (b : BlockId) :
    List (BlockId × Nat) :=
  if (idom.get b).isNone || (reachedPreds m idom b).length < 2 then []
  else (reachedPreds m idom b).flatMap fun p => (climbed parent (parent b) climb (some p)).map
    (·,b.number)

theorem frontiers_eq (m : Module) (e : BlockId) (layout : List BlockId) (climb : Nat)
    (idom : BlockMap (Option BlockId)) :
    frontiers m e layout climb idom =
      (layout.flatMap (joins m (parentIn (some e) idom) climb idom)).foldl enterNumber .empty := by
  rw [foldl_flatMap,frontiers]
  congr 1
  funext t b
  by_cases hc : ((idom.get b).isNone || (reachedPreds m idom b).length < 2) = true
  · rw [joins,if_pos hc]
    exact if_pos hc
  · rw [joins,if_neg hc,foldl_flatMap]
    simp only [← climbFrontier_eq]
    exact if_neg hc

theorem mem_joins_iff {parent : BlockId → Option BlockId} {climb : Nat} :
    (x,k) ∈ joins m parent climb idom b ↔ k = b.number ∧ (idom.get b).isSome ∧
    2 ≤ (reachedPreds m idom b).length ∧
      ∃ p ∈ reachedPreds m idom b, x ∈ climbed parent (parent b) climb (some p) := by
  rw [joins]
  split
  · rename_i hc
    rw [Bool.or_eq_true,decide_eq_true_eq] at hc
    refine iff_of_false not_mem_nil fun ⟨_,hs,hl,_⟩ => ?_
    rcases hc with hc | hc
    · simp_all
    · omega
  · rename_i hc
    rw [Bool.or_eq_true,not_or,decide_eq_true_eq,← Option.not_isSome,Bool.not_eq_true,
      Bool.not_eq_false',Nat.not_lt] at hc
    simp only [mem_flatMap,mem_map,Prod.mk.injEq]
    constructor
    · rintro ⟨p,hp,y,hy,rfl,rfl⟩
      exact ⟨rfl,hc.1,hc.2,p,hp,hy⟩
    · rintro ⟨rfl,-,-,p,hp,hx⟩
      exact ⟨p,hp,x,hx,rfl,rfl⟩

/-- A block with one predecessor that can be reached has it as its link. -/
theorem idom_eq_of_single
    (ht : IsDominatorTree m e order idom) {q : BlockId} (hs : s ≠ e) (hr : idom.get s = some r)
    (hq : m.Reaches e q) (hsq : s ∈ m.succs q)
    (hall : ∀ p, m.Reaches e p → s ∈ m.succs p → p = q) : r = q := by
  have h1 := ht.pred s r q hr hs hq hsq
  have h2 := ht.least s r hr hs q fun p hp hsp => by
    rw [hall p hp hsp]
    exact .refl
  exact ht.tree.antisymm h1 h2

/-! Blocks by number. -/

theorem get_foldl_byNumber (bs : List BlockId) (t : Table (Option BlockId)) (k : Nat) :
    ((bs.foldl (fun t b => t.set b.number (some b)) t).get k = t.get k ∧ ∀ b ∈ bs, b.number ≠ k) ∨
    ∃ b ∈ bs, b.number = k ∧ (bs.foldl (fun t b => t.set b.number (some b)) t).get k = some b := by
  induction bs generalizing t with
  | nil => simp
  | cons b bs ih =>
    rcases ih (t.set b.number (some b)) with ⟨h,hall⟩ | ⟨c,hc,h⟩
    · by_cases hk : b.number = k
      · refine .inr ⟨b,mem_cons_self,hk,?_⟩
        rw [foldl_cons,h,Table.get_set,if_pos hk]
      · refine .inl ⟨?_,?_⟩
        · rw [foldl_cons,h,Table.get_set,if_neg hk]
        · simpa [hk] using hall
    · exact .inr ⟨c,mem_cons_of_mem _ hc,h⟩

theorem byNumber_eq (m : Module) (f : FuncId) : (m.dominators f).byNumber =
    (m.func f).layout.foldl (fun t b => t.set b.number (some b)) .empty := by
  unfold dominators
  cases (m.func f).layout <;> rfl

variable (h : FlowGraph m f e)
include h

theorem byNumber_iff (k : Nat) :
    (m.dominators f).byNumber.get k = some b ↔ b ∈ (m.func f).layout ∧ b.number = k := by
  rw [byNumber_eq]
  rcases get_foldl_byNumber (m.func f).layout .empty k with ⟨hg,hall⟩ | ⟨c,hc,hk,hg⟩
  · simp_all
  · rw [hg,Option.some.injEq]
    constructor
    · rintro rfl
      exact ⟨hc,hk⟩
    · rintro ⟨hb,hk'⟩
      exact h.eq_of_number hc hb (hk.trans hk'.symm)

theorem mem_frontier_iff : b ∈ (m.dominators f).frontier c ↔
    b ∈ (m.func f).layout ∧ b.number ∈ (m.dominators f).frontierNumbers.get c := by
  rw [Dominance.frontier,mem_filterMap]
  constructor
  · rintro ⟨k,hk,hb⟩
    obtain ⟨hl,rfl⟩ := (h.byNumber_iff k).mp hb
    exact ⟨hl,hk⟩
  · rintro ⟨hb,hk⟩
    exact ⟨_,hk,(h.byNumber_iff _).mpr ⟨hb,rfl⟩⟩

theorem frontierNumbers_eq : (m.dominators f).frontierNumbers =
    ((m.func f).layout.flatMap (joins m (parentIn (some e) (m.dominators f).idom)
      ((m.reversePostorder e).length + 1)
      (m.dominators f).idom)).foldl enterNumber .empty := by
  have hf : (m.dominators f).frontierNumbers =
    frontiers m e (m.func f).layout ((m.reversePostorder e).length + 1)
      (m.dominators f).idom := by
    unfold dominators
    rw [h.layout_eq]
  rw [hf,frontiers_eq]

theorem mem_frontier_iff_joins : b ∈ (m.dominators f).frontier c ↔ b ∈ (m.func f).layout ∧
    (c,b.number) ∈ joins m (parentIn (some e) (m.dominators f).idom)
    ((m.reversePostorder e).length + 1) (m.dominators f).idom b := by
  rw [h.mem_frontier_iff,h.frontierNumbers_eq,mem_foldl_enterNumber,mem_flatMap]
  refine and_congr_right fun hb => ?_
  constructor
  · rintro (hk | ⟨b',hb',hk⟩)
    · cases hk
    · obtain rfl := h.eq_of_number hb hb' (mem_joins_iff.mp hk).1
      exact hk
  · exact fun hk => .inr ⟨b,hb,hk⟩

theorem pairwise_frontier (c : BlockId) :
    ((m.dominators f).frontier c).Pairwise fun a b => a.number < b.number := by
  have hnum : ((m.dominators f).frontierNumbers.get c).Pairwise (· < ·) := by
    rw [h.frontierNumbers_eq]
    exact pairwise_foldl_enterNumber _ _ (fun x => by rw [BlockMap.get_empty]; exact .nil) c
  refine hnum.filterMap _ fun k k' hk a ha a' ha' => ?_
  rw [((h.byNumber_iff k).mp ha).2,((h.byNumber_iff k').mp ha').2]
  exact hk

theorem of_mem_frontier (hb : b ∈ (m.dominators f).frontier c) :
    b ∈ (m.func f).layout ∧ m.Reaches e b ∧
    2 ≤ (reachedPreds m (m.dominators f).idom b).length := by
  obtain ⟨hl,hk⟩ := h.mem_frontier_iff_joins.mp hb
  obtain ⟨-,hs,hp,-⟩ := mem_joins_iff.mp hk
  exact ⟨hl,(h.isDominatorTree.isSome_iff b).mp hs,hp⟩

theorem mem_reachedPreds_iff (hb : m.Reaches e b) :
    p ∈ reachedPreds m (m.dominators f).idom b ↔ m.Reaches e p ∧ b ∈ m.succs p := by
  rw [reachedPreds,mem_filter,h.isDominatorTree.isSome_iff,and_comm]
  exact and_congr_right fun hp => h.mirrored p (h.mem_layout hp) b (h.mem_layout hb)

/-- The blocks from a predecessor of `s` up to its immediate dominator have `s` in their frontier.
-/
theorem mem_frontier_iff_above (hse : s ≠ e)
    (hr : (m.dominators f).idom.get s = some r) : s ∈ (m.dominators f).frontier c ↔
      ∃ q, m.Reaches e q ∧ s ∈ m.succs q ∧ Above (m.dominators f).idom c q ∧
        Above (m.dominators f).idom r c ∧ c ≠ r := by
  have ht := h.isDominatorTree
  have hs : m.Reaches e s := (ht.isSome_iff s).mp (by simp [hr])
  have hparent : parentIn (some e) (m.dominators f).idom s = some r := by
    rw [parentIn,if_neg (by simpa using hse),hr]
  have hclimb : ∀ q, m.Reaches e q → s ∈ m.succs q →
      (c ∈ climbed (parentIn (some e) (m.dominators f).idom) (some r)
        ((m.reversePostorder e).length + 1) (some q) ↔
        Above (m.dominators f).idom c q ∧ Above (m.dominators f).idom r c ∧ c ≠ r) :=
    fun q hq hsq => mem_climbed_iff ht _ q (ht.pred s r q hr hse hq hsq)
      ((ht.isSome_iff q).mpr hq) (by omega)
  rw [h.mem_frontier_iff_joins,mem_joins_iff,hparent]
  constructor
  · rintro ⟨-,-,-,-,q,hq,hc⟩
    obtain ⟨hq,hsq⟩ := (h.mem_reachedPreds_iff hs).mp hq
    exact ⟨q,hq,hsq,(hclimb q hq hsq).mp hc⟩
  · rintro ⟨q,hq,hsq,hc⟩
    have hmem := (h.mem_reachedPreds_iff hs).mpr ⟨hq,hsq⟩
    refine ⟨h.mem_layout hs,rfl,by simp [hr],?_,q,hmem,(hclimb q hq hsq).mpr hc⟩
    -- With one predecessor only, that would be the immediate dominator.
    by_contra hlt
    refine hc.2.2 ?_
    have hone : ∀ p, m.Reaches e p → s ∈ m.succs p → p = q := by
      intro p hp hsp
      have hp := (h.mem_reachedPreds_iff hs).mpr ⟨hp,hsp⟩
      generalize reachedPreds m (m.dominators f).idom s = l at hmem hp hlt
      match l with
      | [] => cases hp
      | [x] => rw [mem_singleton.mp hp,mem_singleton.mp hmem]
      | _::_::_ => simp at hlt
    obtain rfl := idom_eq_of_single ht hse hr hq hsq hone
    exact ht.tree.antisymm hc.1 hc.2.1

end FlowGraph
end CMinusF
