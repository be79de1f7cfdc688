import CMinusF.Proofs.Flow.Dominators

/-! The numbers of a walk through the dominator tree: a block dominates another if the walk is
inside the first whenever it is inside the second. -/
namespace CMinusF
open CMinusF.Module

namespace Dominance

/-- A walk from `w` to `w'` has entered and left the blocks of `S` and no others, each inside those
above it. -/
structure Timed (t : BlockMap (Option BlockId)) (S : BlockId → Prop) (w w' : Walk) : Prop where
  clock : w.clock ≤ w'.clock
  range : ∀ x, S x → w.clock ≤ w'.enter.get x ∧ w'.enter.get x ≤ w'.leave.get x ∧
    w'.leave.get x < w'.clock
  old : ∀ x, ¬S x → w'.enter.get x = w.enter.get x ∧ w'.leave.get x = w.leave.get x
  nested : ∀ x y, S x → S y → (Above t x y ↔ w'.enter.get x ≤ w'.enter.get y ∧
    w'.leave.get y ≤ w'.leave.get x)

namespace Timed
variable {t : BlockMap (Option BlockId)} {S S' : BlockId → Prop} {w w1 w2 : Walk} {b : BlockId}

theorem nil (t : BlockMap (Option BlockId)) (w : Walk) : Timed t (fun _ => False) w w :=
  ⟨Nat.le_refl _,fun _ h => h.elim,fun _ _ => ⟨rfl,rfl⟩,fun _ _ h => h.elim⟩

theorem append (h : Timed t S w w1) (h' : Timed t S' w1 w2)
    (hout : ∀ x y, S x → S' y → ¬Above t x y ∧ ¬Above t y x) :
    Timed t (fun x => S x ∨ S' x) w w2 := by
  have hc := h.clock
  have hc' := h'.clock
  have hfirst : ∀ x, S x → w2.enter.get x = w1.enter.get x ∧ w2.leave.get x = w1.leave.get x :=
    fun x hx => h'.old x fun hx' => (hout x x hx hx').1 .refl
  refine ⟨by omega,?_,fun x hx => ?_,?_⟩
  · rintro x (hx | hx)
    · have := h.range x hx
      have := hfirst x hx
      omega
    · have := h'.range x hx
      omega
  · rw [not_or] at hx
    have h1 := h.old x hx.1
    have h2 := h'.old x hx.2
    exact ⟨h2.1.trans h1.1,h2.2.trans h1.2⟩
  · rintro x y (hx | hx) (hy | hy)
    · rw [(hfirst x hx).1,(hfirst x hx).2,(hfirst y hy).1,(hfirst y hy).2]
      exact h.nested x y hx hy
    · refine iff_of_false (hout x y hx hy).1 fun hr => ?_
      have := h.range x hx
      have := h'.range y hy
      have := hfirst x hx
      omega
    · refine iff_of_false (hout y x hy hx).2 fun hr => ?_
      have := h.range y hy
      have := h'.range x hx
      have := hfirst y hy
      omega
    · exact h'.nested x y hx hy

theorem around (h : Timed t S ⟨w.clock + 1,w.enter.set b w.clock,w.leave⟩ w1) (hb : ¬S b)
    (hbelow : ∀ x, S x → Above t b x ∧ ¬Above t x b) :
    Timed t (fun x => x = b ∨ S x) w ⟨w1.clock + 1,w1.enter,w1.leave.set b w1.clock⟩ := by
  have hc := h.clock
  have hne : ∀ x, S x → b ≠ x := by
    rintro x hx rfl
    exact hb hx
  have henter : w1.enter.get b = w.clock := by rw [(h.old b hb).1,BlockMap.get_set,if_pos rfl]
  have hleave : ∀ x, S x → (w1.leave.set b w1.clock).get x = w1.leave.get x := by
    intro x hx
    rw [BlockMap.get_set,if_neg (hne x hx)]
  have hend : (w1.leave.set b w1.clock).get b = w1.clock := by rw [BlockMap.get_set,if_pos rfl]
  simp only at hc
  refine ⟨by simp only; omega,?_,fun x hx => ?_,?_⟩
  · rintro x (rfl | hx)
    · simp only [hend]
      omega
    · have := h.range x hx
      simp only [hleave x hx]
      simp only at this
      omega
  · rw [not_or] at hx
    have := h.old x hx.2
    simpa [BlockMap.get_set,Ne.symm hx.1] using this
  · rintro x y (rfl | hx) (rfl | hy)
    · exact iff_of_true .refl ⟨Nat.le_refl _,Nat.le_refl _⟩
    · have := h.range y hy
      simp only [hleave y hy] at this ⊢
      exact iff_of_true (hbelow y hy).1 (by omega)
    · have := h.range x hx
      simp only [hleave x hx] at this ⊢
      exact iff_of_false (hbelow x hx).2 (by omega)
    · simp only [hleave x hx,hleave y hy]
      exact h.nested x y hx hy

end Timed
end Dominance

namespace FlowGraph
open Dominance
variable {m : Module} {f : FuncId} {e a b c : BlockId}

theorem timed_walk (h : FlowGraph m f e) (n : Nat) (w : Walk)
    (hn : (postorderNumbers (m.reversePostorder e)).get b < n) :
    Timed (m.dominators f).idom (Above (m.dominators f).idom b) w
      (walk (m.dominators f).children n w b) := by
  have ht := h.isDominatorTree.tree
  induction n generalizing b w with
  | zero => exact absurd hn (Nat.not_lt_zero _)
  | succ n ih =>
    have key : ∀ cs : List BlockId, (∀ c ∈ cs, c ∈ (m.dominators f).children.get b) →
      cs.Nodup → ∀ w : Walk,
        Timed (m.dominators f).idom (fun x => ∃ c ∈ cs, Above (m.dominators f).idom c x) w
          (cs.foldl (walk (m.dominators f).children n) w) := by
      intro cs
      induction cs with
      | nil =>
        intro _ _ w
        simpa using Timed.nil _ w
      | cons c cs ihcs =>
        intro hcs hnd w
        obtain ⟨hc,hcs⟩ := List.forall_mem_cons.mp hcs
        obtain ⟨hnot,hnd⟩ := List.nodup_cons.mp hnd
        have h1 := ih (b := c) w (by have := h.child_lt hc; omega)
        have h2 := h1.append (ihcs hcs hnd _) ?_
        · simpa using h2
        · rintro x y hx ⟨c',hc',hy⟩
          have hne : c ≠ c' := by
            rintro rfl
            exact hnot hc'
          exact ⟨fun ha => h.disjoint_children hc (hcs c' hc') hne (hx.trans ha) hy,
            fun ha => h.disjoint_children hc (hcs c' hc') hne hx (hy.trans ha)⟩
    have hbelow : ∀ x, (∃ c ∈ (m.dominators f).children.get b, Above (m.dominators f).idom c x) →
        Above (m.dominators f).idom b x ∧ ¬Above (m.dominators f).idom x b := by
      rintro x ⟨c,hc,hx⟩
      have hbc : Above (m.dominators f).idom b c := .up (h.mem_children_iff.mp hc).2 .refl
      have h1 := h.child_lt hc
      have h2 := ht.rank_le hx
      exact ⟨hbc.trans hx,fun ha => by have := ht.rank_le ha; omega⟩
    have h3 := Timed.around (w := w) (key _ (fun _ hc => hc) h.children_nodup _)
      (fun hb => (hbelow b hb).2 .refl) hbelow
    have hS : (fun x => x = b ∨ ∃ c ∈ (m.dominators f).children.get b,
      Above (m.dominators f).idom c x) =
        Above (m.dominators f).idom b := by
      funext x
      refine propext ⟨?_,fun hx => ?_⟩
      · rintro (rfl | hx)
        · exact .refl
        · exact (hbelow x hx).1
      · by_cases hbx : b = x
        · exact .inl hbx.symm
        · exact .inr (h.exists_child hx hbx)
    rw [hS] at h3
    exact h3

theorem dominates_iff (h : FlowGraph m f e) (hb : m.Reaches e b) :
    (m.dominators f).dominates a b = true ↔ m.Dominates e a b := by
  have ht := h.isDominatorTree
  have hwalk : (m.dominators f).enter =
    (walk (m.dominators f).children ((m.reversePostorder e).length + 1)
        ⟨0,.empty,.empty⟩ e).enter ∧ (m.dominators f).leave = (walk (m.dominators f).children
        ((m.reversePostorder e).length + 1) ⟨0,.empty,.empty⟩ e).leave := by
    unfold dominators
    rw [h.layout_eq]
    exact ⟨rfl,rfl⟩
  have htimed := h.timed_walk (b := e) ((m.reversePostorder e).length + 1) ⟨0,.empty,.empty⟩
    (Nat.lt_succ_of_lt (ht.ranked.bound e ht.ranked.entry_mem))
  have hbelow : ∀ x, m.Reaches e x → Above (m.dominators f).idom e x :=
    fun _ => h.above_entry_iff.mpr
  rw [dominates,hwalk.1,hwalk.2,Bool.or_eq_true,decide_eq_true_eq]
  simp only [Bool.and_eq_true,decide_eq_true_eq,h.reachable_iff,hb,and_true]
  constructor
  · rintro (rfl | ⟨⟨ha,h1⟩,h2⟩)
    · exact .refl m e a
    · exact ht.dominates_of_above ((htimed.nested a b (hbelow a ha) (hbelow b hb)).mpr ⟨h1,h2⟩)
  · intro hd
    have ha := hd.reaches hb
    obtain ⟨h1,h2⟩ := (htimed.nested a b (hbelow a ha) (hbelow b hb)).mp (ht.dominators b a hb hd)
    exact Or.inr ⟨⟨ha,h1⟩,h2⟩

end FlowGraph
end CMinusF
