import CMinusF.Transform.Hoisting
import CMinusF.Proofs.Graph.Formed

/-! What is found to be invariant: each instruction after those of the loop that it depends on. -/
namespace CMinusF.Hoisting
open List

/-- Invariant instructions in the order in which they are found. -/
inductive Ordered (m : Module) (p : Purity) (e : Effects) (body : List InstrId) :
    List InstrId → Prop where
  | nil : Ordered m p e body []
  | snoc {found : List InstrId} {i : InstrId} : Ordered m p e body found → i ∈ body → i ∉ found →
      canHoist m p e body found i = true → Ordered m p e body (found ++ [i])

section
variable {m : Module} {p : Purity} {e : Effects} {body found : List InstrId} {i : InstrId}

theorem Ordered.sweep (h : Ordered m p e body found) :
    Ordered m p e body (sweep m p e body found) := by
  have key : ∀ is : List InstrId, (∀ i ∈ is, i ∈ body) → ∀ found, Ordered m p e body found →
    Ordered m p e body
      (is.foldl (fun found i => if i ∉ found && canHoist m p e body found i then found ++ [i]
        else found) found) := by
    intro is
    induction is with
    | nil => exact fun _ _ h => h
    | cons i is ih =>
      intro his found h
      obtain ⟨hi,his⟩ := forall_mem_cons.mp his
      refine ih his _ ?_
      dsimp only
      split
      · rename_i hc
        rw [Bool.and_eq_true,decide_eq_true_eq] at hc
        exact h.snoc hi hc.1 hc.2
      · exact h
  exact key body (fun _ hi => hi) found h

theorem Ordered.invariantsFrom (h : Ordered m p e body found) (n : Nat) :
    Ordered m p e body (invariantsFrom m p e body n found) := by
  induction n generalizing found with
  | zero => exact h
  | succ n ih =>
    rw [Hoisting.invariantsFrom]
    split
    · exact h
    · exact ih h.sweep

def bodyOf (m : Module) (l : Loop) : List InstrId := l.blocks.flatMap fun b => (m.block b).instrs

theorem ordered_invariants (m : Module) (p : Purity) (l : Loop) :
    Ordered m p (Effects.ofInstrs m p (bodyOf m l)) (bodyOf m l) (invariants m p l) :=
  Ordered.nil.invariantsFrom _

theorem Ordered.nodup (h : Ordered m p e body found) : found.Nodup := by
  induction h with
  | nil => exact nodup_nil
  | snoc _ _ hnot _ ih => exact concat_eq_append ▸ ih.concat hnot

theorem Ordered.split (h : Ordered m p e body found) {pre post : List InstrId}
    (hs : found = pre ++ i :: post) :
    i ∈ body ∧ canHoist m p e body pre i = true := by
  induction h generalizing post with
  | nil => simp at hs
  | @snoc found j h hj hnot hc ih =>
    rcases eq_nil_or_concat post with rfl | ⟨post,k,rfl⟩
    · simp_all
    · rw [concat_eq_append,← cons_append,← append_assoc] at hs
      exact ih (append_inj' hs rfl).1

theorem op_of_canHoist (h : canHoist m p e body found i = true) :
    (m.instr i).op ≠ .store ∧ (m.instr i).op ≠ .phi ∧ (m.instr i).op.isTerminator = false := by
  unfold canHoist at h
  generalize (m.instr i).op = op at h
  cases op <;> simp_all [Opcode.isTerminator]

theorem op_of_mem_invariants {l : Loop} (h : i ∈ invariants m p l) :
    (m.instr i).op ≠ .store ∧ (m.instr i).op ≠ .phi ∧ (m.instr i).op.isTerminator = false := by
  obtain ⟨pre,post,hs⟩ := append_of_mem h
  exact op_of_canHoist ((ordered_invariants m p l).split hs).2

end
end CMinusF.Hoisting
