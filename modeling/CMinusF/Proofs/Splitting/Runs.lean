import CMinusF.Proofs.Splitting.Kept
import Mathlib.Data.List.Find

/-! A block on an edge makes no difference to a run, unless it has become the entry. -/
namespace CMinusF
open CMinusF.Module CMinusF.Hoisting CMinusF.Run List

theorem find?_relabel {p b c q : BlockId} {ps : List (Operand × BlockId)}
    (h : ∀ x ∈ ps, (if x.2 = p then b else x.2) = c ↔ x.2 = q) :
    ((relabel p b ps).find? (·.2 = c)).map (·.1) = (ps.find? (·.2 = q)).map (·.1) := by
  rw [relabel,find?_map,Option.map_map]
  exact congrArg _ (find?_congr fun x hx => decide_eq_decide.mpr (h x hx))

namespace Bridged
variable {m n : Module} {f : FuncId} {e p s b d q : BlockId} {i : InstrId}

theorem ne_of_laid (h : Bridged m n f e p s b) (hm : Sealed m) (hd : m.Laid d) : d ≠ b := by
  obtain ⟨g,hg,hd⟩ := hd
  exact h.ne_of_verify (hm.verified g hg) hd

theorem ends_of_br (h : Bridged m n f e p s b) (hi : i ∈ (m.block p).instrs)
    (hop : (m.instr i).op = .br) : m.Ends p i := by
  obtain ⟨t,ht,-⟩ := h.flow.ends p h.source_mem
  obtain ⟨is,his,hplain⟩ := ht.last
  rw [his,mem_append,mem_singleton] at hi
  rcases hi with hi | rfl
  · have := hplain i hi
    rw [hop] at this
    cases this
  · exact ht

theorem br_of_ends (h : Bridged m n f e p s b) (ht : m.Ends p i) : (m.instr i).op = .br := by
  obtain ⟨t,ht',htargets⟩ := h.flow.ends p h.source_mem
  obtain rfl := ht.unique ht'
  exact (mem_targets.mp ((htargets s).mpr h.mem_succs)).1

theorem parent_of_laid (hm : Sealed m) (hd : m.Laid d) (hi : i ∈ (m.block d).instrs) :
    (m.instr i).parent = some d := by
  obtain ⟨g,hg,hd⟩ := hd
  obtain ⟨xs,ys,hs⟩ := append_of_mem hi
  exact ((blockChecked (hm.verified g hg) hd).instr xs i ys hs).parent

/-- A phi takes from the blocks there were what it took, except that the new one stands for the
predecessor. -/
theorem incomingFor?_eq (h : Bridged m n f e p s b) (hm : Sealed m) (hd : m.Laid d)
    (hi : i ∈ m.phis d) (hq : m.Laid q) (hdq : d = s → q ≠ p) :
    n.incomingFor? i q = m.incomingFor? i q := by
  have hp := parent_of_laid hm hd (phis_subset m d hi)
  by_cases hds : d = s
  · subst hds
    obtain ⟨ps,hps,-,-⟩ := pairs_of_mem_phis h.verified h.target hi
    have hn : n.operands i = arms (relabel p b ps) := by rw [operands_eq_code,h.renamed i hi ps hps]
    have hqp := hdq rfl
    have hqb := h.ne_of_laid hm hq
    rw [incomingFor?_of_operands hn,incomingFor?_of_operands hps]
    exact find?_relabel fun x _ => by grind
  · have hkept : n.code.instr i = m.code.instr i := by
      refine h.kept i (Fronted.ne_size_of_parent hp) (fun hend => ?_) fun hphi => hds ?_
      · have := h.br_of_ends hend
        rw [op_of_mem_phis hi] at this
        cases this
      · exact Option.some.inj
          (hp.symm.trans (parent_of_laid hm ⟨f,hm.coded f (ne_nil_of_mem h.target),h.target⟩
          (phis_subset m s hphi)))
    rw [incomingFor?,incomingFor?,incoming,incoming,operands_eq_code,hkept,← operands_eq_code]

theorem incomingFor?_new (h : Bridged m n f e p s b) (hi : i ∈ m.phis s) :
    n.incomingFor? i b = m.incomingFor? i p := by
  obtain ⟨ps,hps,-,hpreds⟩ := pairs_of_mem_phis h.verified h.target hi
  have hn : n.operands i = arms (relabel p b ps) := by rw [operands_eq_code,h.renamed i hi ps hps]
  have hne : ∀ x ∈ ps, x.2 ≠ b := fun x hx => h.ne (h.flow.inward s h.target x.2 (hpreds x hx))
  rw [incomingFor?_of_operands hn,incomingFor?_of_operands hps]
  exact find?_relabel fun x hx => by grind

theorem rerouted (h : Bridged m n f e p s b) (hm : Sealed m) (hes : e ≠ s) :
    Rerouted m n s b p := by
  have hlit : ∀ c, (n.literal c).value = (m.literal c).value := fun c => congrFun h.literal c
  have hphis : ∀ d, m.Laid d → n.phis d = m.phis d := by
    rintro d ⟨g,hg,hd⟩
    exact h.phis_old (hm.verified g hg) hd
  have hsize : ∀ {d}, m.Laid d → ∀ i ∈ m.body d, i ≠ m.instrTable.size := fun hd i hi =>
    Fronted.ne_size_of_parent (parent_of_laid hm hd (body_subset m _ hi))
  have hop := congrArg Instr.op h.branch
  have hnil : n.phis b = [] := by
    rw [Module.phis,h.instrs,if_pos rfl,takeWhile_cons_of_neg]
    exact fun hphi => by cases hop.symm.trans (of_decide_eq_true hphi)
  refine ⟨fun g => (h.signature g).1,fun g => ?_,hlit,hphis,fun d hd => ?_,fun d hd i hi => ?_,
    fun d hd i hi hbr => ?_,fun i hi hbr => ?_,fun d hd i hi q hq => h.incomingFor?_eq hm hd hi hq,
    ⟨hnil,m.instrTable.size,?_,hop,h.operands_new⟩,fun i => h.incomingFor?_new⟩
  · rw [Func.entryBlock?,Func.entryBlock?,h.layout]
    split
    · rename_i hg
      subst hg
      rw [head?_front h.flow.entry,if_neg hes,h.flow.entry]
    · rfl
  · rw [body,body,hphis d hd,h.instrs_old (h.ne_of_laid hm hd)]
  · obtain ⟨h1,h2,h3,-⟩ := h.view (hsize hd i hi)
    exact ⟨h1,h2,h3⟩
  · have hkept : n.code.instr i = m.code.instr i := by
      refine h.kept i (hsize hd i hi) (fun hend => ?_) fun hphi => ?_
      · exact hbr (Option.some.inj
          ((parent_of_laid hm hd (body_subset m _ hi)).symm.trans hend.parent)) (h.br_of_ends hend)
      · obtain ⟨g,hg,hd⟩ := hd
        exact Tidy.not_phi (hm.verified g hg) hd hi (op_of_mem_phis hphi)
    rw [operands_eq_code,hkept,← operands_eq_code]
  · rw [operands_eq_code,h.moved i (h.ends_of_br (body_subset m _ hi) hbr)]
  · rw [body,hnil,h.instrs,if_pos rfl]
    rfl

end Bridged
end CMinusF
