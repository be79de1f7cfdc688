import CMinusF.Flow.Purity
import CMinusF.Proofs.Graph.Mirror
import Mathlib.Data.List.Chain
import Mathlib.Data.List.Perm.Subperm
import Mathlib.Logic.Relation

/-! The objects that addresses point into. If no address is computed from itself, every address has
one, and it does not depend on how many instructions there are elsewhere. -/
namespace CMinusF.Module

def BasedOn (m : Module) (i j : InstrId) : Prop := (m.instr i).op = .gep ∧ m.operand i 0 = .instr j

/-- No address is computed from itself. -/
def Grounded (m : Module) : Prop := ∀ i, ¬Relation.TransGen m.BasedOn i i

inductive Root (m : Module) : Operand → Operand → Prop where
  | object {v : Operand} : (∀ i, v = .instr i → (m.instr i).op ≠ .gep) → Root m v v
  | step {i : InstrId} {r : Operand} : (m.instr i).op = .gep → Root m (m.operand i 0) r →
      Root m (.instr i) r

variable {m n : Module} {v r r' : Operand}

theorem Root.unique (h : m.Root v r) (h' : m.Root v r') : r = r' := by
  induction h with
  | object hv =>
    cases h' with
    | object => rfl
    | step hop => exact absurd hop (hv _ rfl)
  | step hop _ ih =>
    cases h' with
    | object hv => exact absurd hop (hv _ rfl)
    | step _ h' => exact ih h'

/-- After `k` steps the object is found, or there are `k` addresses each of which is based on the
next one. -/
theorem root_or_chain (m : Module) (k : Nat) (v : Operand) : m.Root v (m.rootFrom k v) ∨
    ∃ is : List InstrId, is.length = k ∧ is.IsChain m.BasedOn ∧ (∀ i ∈ is, (m.instr i).op = .gep) ∧
      ∀ i, is.head? = some i → v = .instr i := by
  induction k generalizing v with
  | zero => exact .inr ⟨[],rfl,.nil,by simp,by simp⟩
  | succ k ih =>
    cases v with
    | instr i =>
      rw [rootFrom]
      by_cases hop : (m.instr i).op = .gep
      · rw [if_pos hop]
        rcases ih (m.operand i 0) with hr | ⟨is,hlen,hchain,hgep,hhead⟩
        · exact .inl (.step hop hr)
        · refine .inr ⟨i :: is,by simp [hlen],?_,?_,by simp⟩
          · exact List.isChain_cons.mpr ⟨fun j hj => ⟨hop,hhead j hj⟩,hchain⟩
          · exact List.forall_mem_cons.mpr ⟨hop,hgep⟩
      · rw [if_neg hop]
        refine .inl (.object fun j hj => ?_)
        rwa [← Operand.instr.inj hj]
    | _ => exact .inl (.object fun _ hj => by cases hj)

theorem Grounded.root (h : m.Grounded) (v : Operand) : m.Root v (m.memoryRoot v) := by
  rcases m.root_or_chain (m.instrTable.size + 1) v with hr | ⟨is,hlen,hchain,hgep,_⟩
  · exact hr
  · have htrans : is.Pairwise (Relation.TransGen m.BasedOn) :=
      (hchain.imp fun _ _ => Relation.TransGen.single).pairwise
    have hnd : is.Nodup := htrans.imp fun {i j} hij => by
      rintro rfl
      exact h i hij
    have hsub : is ⊆ List.range m.instrTable.size :=
        fun i hi => List.mem_range.mpr <| lt_size_of_ne fun hd => by
      have := hgep i hi
      rw [hd] at this
      cases this
    have := (List.subperm_of_subset hnd hsub).length_le
    rw [List.length_range] at this
    omega

theorem grounded_of_lt (h : ∀ i, i < m.instrTable.size → (m.instr i).op = .gep →
    (match m.operand i 0 with | .instr j => decide (j < i) | _ => true) = true) : m.Grounded := by
  have hstep : ∀ {i j}, m.BasedOn i j → j < i := by
    rintro i j ⟨hop,hj⟩
    have := h i (lt_size_of_ne fun hd => by rw [hd] at hop; cases hop) hop
    rw [hj] at this
    exact of_decide_eq_true this
  have hlt : ∀ {i j}, Relation.TransGen m.BasedOn i j → j < i := by
    intro i j hij
    induction hij with
    | single h => exact hstep h
    | tail _ h ih => exact Nat.lt_trans (hstep h) ih
  exact fun i hi => Nat.lt_irrefl i (hlt hi)

section
variable (hs : ∀ i, (m.instr i).op = .gep ∨ (n.instr i).op = .gep →
  (n.instr i).op = (m.instr i).op ∧ n.operands i = m.operands i)
include hs

theorem Root.congr (h : m.Root v r) : n.Root v r := by
  induction h with
  | object hv =>
    refine .object fun i hi hop => hv i hi ?_
    rw [← (hs i (.inr hop)).1,hop]
  | @step i r hop _ ih =>
    obtain ⟨h1,h2⟩ := hs i (.inl hop)
    have : n.operand i 0 = m.operand i 0 := by rw [operand,operand,h2]
    exact .step (h1.trans hop) (this ▸ ih)

theorem Grounded.congr (h : m.Grounded) : n.Grounded := by
  refine fun i hi => h i (Relation.TransGen.mono (fun i j hij => ?_) i i hi)
  obtain ⟨h1,h2⟩ := hs i (.inr hij.1)
  exact ⟨h1 ▸ hij.1,by rw [operand,← h2]; exact hij.2⟩

/-- Addresses that are computed in the same way point into the same objects. -/
theorem Grounded.memoryRoot_eq (h : m.Grounded) (v : Operand) : n.memoryRoot v = m.memoryRoot v :=
  ((h.congr hs).root v).unique ((h.root v).congr hs)

end
end CMinusF.Module
