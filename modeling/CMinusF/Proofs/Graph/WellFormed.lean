import CMinusF.Proofs.Graph.Verified

/-! Well-formed functions in single assignment form: what every transformation may count on and has
to leave behind. -/
namespace CMinusF
variable {m : Module} {f : FuncId} {e : BlockId} {v : Operand}

/-- Besides what is tidy, a block has one edge to each of its neighbours. -/
structure Regular (m : Module) (f : FuncId) : Prop extends Tidy m f where
  succs_nodup : ∀ b ∈ (m.func f).layout, (m.succs b).Nodup

/-- Phis that are reached have one value for each predecessor that is. -/
def PhisComplete (m : Module) (e : BlockId) : Prop :=
  ∀ b, m.Reaches e b → ∀ p ∈ (m.block b).instrs, (m.instr p).op = .phi →
    ∀ q ∈ m.preds b, m.Reaches e q →
    ((m.incoming p).map (·.2)).count (.block q) = 1

structure WellFormed (m : Module) (f : FuncId) : Prop where
  verified : m.verify f = .ok ()
  ssa : ∀ e, (m.func f).layout.head? = some e → SingleAssignment m f e
  complete : ∀ e, (m.func f).layout.head? = some e → PhisComplete m e

theorem WellFormed.of_no_phi (hv : m.verify f = .ok ())
    (he : (m.func f).layout.head? = some e) (hs : SingleAssignment m f e)
    (hclosed : ∀ b ∈ (m.func f).layout, ∀ c ∈ m.succs b, c ∈ (m.func f).layout)
    (hphi : ∀ i ∈ m.instrs f, (m.instr i).op ≠ .phi) : WellFormed m f := by
  have hentry : ∀ e', (m.func f).layout.head? = some e' → e' = e :=
    fun e' he' => Option.some.inj (he'.symm.trans he)
  refine ⟨hv,fun e' he' => hentry e' he' ▸ hs,fun e' he' b hb p hp hop => ?_⟩
  rw [hentry e' he'] at hb
  have hbl := hb.induction (P := (· ∈ (m.func f).layout)) (List.mem_of_mem_head? (by simp [he]))
    fun b c _ hb hc =>
    hclosed b hb c hc
  exact absurd hop (hphi p (Module.mem_instrs_iff.mpr ⟨b,hbl,hp⟩))

/-- A function whose values are read in the block where they are computed, or by phis at its end. -/
theorem WellFormed.of_local (hv : m.verify f = .ok ())
    (he : (m.func f).layout.head? = some e)
    (hclosed : ∀ b ∈ (m.func f).layout, ∀ c ∈ m.succs b, c ∈ (m.func f).layout)
    (hread : ∀ b ∈ (m.func f).layout, ∀ k, k < (m.block b).instrs.length →
      (m.instr ((m.block b).instrs.getD k 0)).op ≠ .phi →
      (m.operands ((m.block b).instrs.getD k 0)).all (fun
        | .instr j => j ∈ (m.block b).instrs.take k
        | _ => true) = true)
    (hphi : ∀ b ∈ (m.func f).layout, ∀ p ∈ (m.block b).instrs, (m.instr p).op = .phi →
      (m.incoming p).all (fun
        | (.instr j,.block q) => j ∈ (m.block q).instrs
        | _ => true) = true)
    (hlinked : ∀ i ∈ m.instrs f, ∀ u ∈ m.uses (.instr i), u ∈ m.instrs f)
    (hcomplete : ∀ b ∈ (m.func f).layout, ∀ p ∈ (m.block b).instrs, (m.instr p).op = .phi →
      ∀ q ∈ m.preds b,
      ((m.incoming p).map (·.2)).count (.block q) = 1) : WellFormed m f := by
  have hentry : ∀ e', (m.func f).layout.head? = some e' → e' = e :=
    fun e' he' => Option.some.inj (he'.symm.trans he)
  have hreach : ∀ {b}, m.Reaches e b → b ∈ (m.func f).layout := fun hb =>
    hb.induction (P := (· ∈ (m.func f).layout)) (List.mem_of_mem_head? (by simp [he]))
      fun b c _ hb hc => hclosed b hb c hc
  refine ⟨hv,fun e' he' => hentry e' he' ▸
    ⟨fun b hb pre i post hpp hop j hj => ?_,fun b hb p hp hop q _ j hj => ?_,hlinked⟩,
    fun e' he' b hb p hp hop q hq _ => hcomplete b (hreach (hentry e' he' ▸ hb)) p hp hop q hq⟩
  · have := List.all_eq_true.mp
      (hread b (hreach hb) pre.length (by simp [hpp]) (by simpa [hpp] using hop)) (.instr j)
      (by simpa [hpp] using hj)
    exact .inl (by simpa [hpp] using this)
  · have := List.all_eq_true.mp (hphi b (hreach hb) p hp hop) _ hj
    exact .inl (of_decide_eq_true this)

namespace Module
variable {b : BlockId} {i : InstrId}

/-- What an instruction of the function may name besides instructions. -/
def Owned (f : FuncId) : Operand → Prop
  | .hole => False
  | .arg g _ => g = f
  | .block c => c.func = f
  | _ => True

theorem operandDefect?_eq_none_iff : m.operandDefect? f b i v = none ↔ Owned f v ∧
    ∀ j, v = .instr j → (∃ c, (m.instr j).parent = some c ∧ c.func = f) ∧
      (m.instr j).type.isVoid = false := by
  cases v with
  | instr j =>
    cases hp : (m.instr j).parent with
    | none => simp [operandDefect?,hp]
    | some c => by_cases hc : c.func = f <;> simp [operandDefect?,hp,Owned,hc]
  | _ => simp [operandDefect?,Owned]

theorem owned_of_verify (h : m.verify f = .ok ()) (hi : i ∈ m.instrs f) (hv : v ∈ m.operands i) :
    Owned f v := by
  obtain ⟨b,hb,hib⟩ := mem_instrs_iff.mp hi
  obtain ⟨pre,post,hpp⟩ := List.append_of_mem hib
  exact (operandDefect?_eq_none_iff.mp (((blockChecked h hb).instr pre i post hpp).operand v hv)).1

end Module
end CMinusF
