import CMinusF.Flow.Dominance
import Mathlib.Data.List.Nodup
import Mathlib.Data.List.Pairwise
import Mathlib.Order.Nat

/-! Trails through the blocks of a function, and dominance as a statement about all of them: a block
dominates another if no trail from the entry gets there without it. -/
namespace CMinusF.Module
open List
variable {m : Module} {e a b c : BlockId}

/-- A trail along successor edges from `e`; its blocks are listed with the last one first. -/
inductive Trail (m : Module) (e : BlockId) : BlockId → List BlockId → Prop where
  | start : Trail m e e [e]
  | step {b c : BlockId} {bs : List BlockId} : Trail m e b bs → c ∈ m.succs b →
      Trail m e c (c :: bs)

def Reaches (m : Module) (e b : BlockId) : Prop := ∃ bs, Trail m e b bs

/-- Every trail from `e` to `b` passes through `a`. -/
def Dominates (m : Module) (e a b : BlockId) : Prop := ∀ bs, Trail m e b bs → a ∈ bs

namespace Trail
variable {bs cs : List BlockId}

variable (h : Trail m e b bs)
include h

theorem mem_end : b ∈ bs := by cases h <;> simp

theorem mem_start : e ∈ bs := by
  induction h with
  | start => simp
  | step _ _ ih => simp [ih]

theorem cut (ha : a ∈ bs) : ∃ as, Trail m e a as ∧ as <:+ bs := by
  induction h with
  | start =>
    obtain rfl := mem_singleton.mp ha
    exact ⟨_,.start,suffix_refl _⟩
  | @step b c bs ht hc ih =>
    rcases mem_cons.mp ha with rfl | ha
    · exact ⟨_,ht.step hc,suffix_refl _⟩
    · grind

theorem append (h' : Trail m b c cs) : ∃ ds, Trail m e c ds ∧ ∀ x ∈ ds, x ∈ bs ∨ x ∈ cs := by
  induction h' with
  | start => exact ⟨bs,h,fun x hx => .inl hx⟩
  | @step c d cs _ hd ih =>
    obtain ⟨ds,ht,hds⟩ := ih
    refine ⟨_,ht.step hd,?_⟩
    intro x hx
    rcases mem_cons.mp hx with rfl | hx
    · exact .inr (by simp)
    · exact (hds x hx).imp_right (mem_cons_of_mem _)

theorem cut_length (ha : a ∈ bs) (hne : a ≠ b) :
    ∃ as, Trail m e a as ∧ as.length < bs.length := by
  cases h with
  | start => exact absurd (mem_singleton.mp ha) hne
  | @step b' _ bs ht hc =>
    rcases mem_cons.mp ha with rfl | ha
    · exact absurd rfl hne
    · obtain ⟨as,hs,hsub⟩ := ht.cut ha
      exact ⟨as,hs,Nat.lt_succ_of_le hsub.length_le⟩

end Trail

theorem Reaches.refl (m : Module) (e : BlockId) : m.Reaches e e := ⟨_,.start⟩

theorem Reaches.step (h : m.Reaches e b) (hc : c ∈ m.succs b) :
    m.Reaches e c := by
  obtain ⟨bs,ht⟩ := h
  exact ⟨_,ht.step hc⟩

theorem Reaches.trans (h : m.Reaches a b) (h' : m.Reaches b c) :
    m.Reaches a c := by
  obtain ⟨bs,ht⟩ := h
  obtain ⟨cs,ht'⟩ := h'
  obtain ⟨ds,hd,_⟩ := ht.append ht'
  exact ⟨ds,hd⟩

/-- What holds of the entry and passes along edges holds of every block that can be reached. -/
theorem Reaches.induction {P : BlockId → Prop} (h0 : P e)
    (h1 : ∀ b c, m.Reaches e b → P b → c ∈ m.succs b → P c) (h : m.Reaches e b) : P b := by
  obtain ⟨bs,ht⟩ := h
  induction ht with
  | start => exact h0
  | step ht hc ih => exact h1 _ _ ⟨_,ht⟩ ih hc

namespace Dominates

theorem refl (m : Module) (e b : BlockId) : m.Dominates e b b := fun _ ht => ht.mem_end

theorem entry (m : Module) (e b : BlockId) : m.Dominates e e b := fun _ ht => ht.mem_start

theorem trans (hab : m.Dominates e a b) (hbc : m.Dominates e b c) : m.Dominates e a c := by
  intro bs ht
  obtain ⟨as,hs,hsub⟩ := ht.cut (hbc bs ht)
  exact hsub.subset (hab as hs)

/-- A block that dominates a successor, and is not it, dominates the block before. -/
theorem of_succ (h : m.Dominates e a c) (hc : c ∈ m.succs b) (hne : a ≠ c) : m.Dominates e a b := by
  intro bs ht
  rcases mem_cons.mp (h _ (ht.step hc)) with rfl | hm
  · exact absurd rfl hne
  · exact hm

theorem reaches (h : m.Dominates e a b) (hb : m.Reaches e b) : m.Reaches e a := by
  obtain ⟨bs,ht⟩ := hb
  obtain ⟨as,hs,_⟩ := ht.cut (h bs ht)
  exact ⟨as,hs⟩

/-- Two blocks that dominate each other are one: a shortest trail to either would pass the other. -/
theorem antisymm (hab : m.Dominates e a b) (hba : m.Dominates e b a)
    (hb : m.Reaches e b) : a = b := by
  by_contra hne
  have key : ∀ n (x y : BlockId), x ≠ y → m.Dominates e x y → m.Dominates e y x →
      ∀ bs, Trail m e y bs → bs.length ≤ n → False := by
    intro n
    induction n with
    | zero =>
      intro x y _ _ _ bs ht hn
      have := length_pos_of_mem ht.mem_end
      omega
    | succ n ih =>
      intro x y hxy hd hd' bs ht hn
      obtain ⟨as,hs,hlt⟩ := ht.cut_length (hd bs ht) hxy
      exact ih y x (Ne.symm hxy) hd' hd as hs (by omega)
  obtain ⟨bs,ht⟩ := hb
  exact key _ a b hne hab hba bs ht (Nat.le_refl _)

end Dominates

/-! Only the successor lists matter. -/
section
variable {n : Module}

theorem trail_congr (h : ∀ b, n.succs b = m.succs b) : n.Trail = m.Trail := by
  have key : ∀ {m n : Module}, (∀ b, n.succs b = m.succs b) → ∀ {e b bs}, m.Trail e b bs →
      n.Trail e b bs := by
    intro m n h e b bs ht
    induction ht with
    | start => exact .start
    | step _ hc ih => exact ih.step (h _ ▸ hc)
  grind

theorem reaches_congr (h : ∀ b, n.succs b = m.succs b) : n.Reaches = m.Reaches := by
  funext e b
  rw [Reaches,trail_congr h]
  rfl

theorem dominates_congr (h : ∀ b, n.succs b = m.succs b) : n.Dominates = m.Dominates := by
  funext e a b
  rw [Dominates,trail_congr h]
  rfl

end
end CMinusF.Module
