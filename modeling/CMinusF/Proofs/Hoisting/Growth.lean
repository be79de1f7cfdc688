import CMinusF.Proofs.Hoisting.ForestKept

/-! What a new preheader leaves alone: everything but branches and phis. -/
namespace CMinusF
open CMinusF.Module List

theorem Module.instr_newPhi {m : Module} {b : BlockId} (t : Ty) (i : InstrId) :
    (m.newPhi b t).1.code.instr i =
    if i = m.instrTable.size then { m.newInstr b.func .phi t none [] with parent := some b }
      else m.code.instr i := by
  have hinstr : (m.counted b.func t).code.instr = m.code.instr := by
    rw [code_counted]
    split <;> rfl
  rw [code_newPhi]
  simp only [Code.modifyBlock,Code.modifyInstr,Code.setInstr,hinstr]
  grind

namespace Hoisting

/-- Neither a phi nor what a block ends with. -/
def Plain (m : Module) (i : InstrId) : Prop :=
  (m.instr i).op ≠ .phi ∧ (m.instr i).op.isTerminator = false

/-- The operands of `xs` may have changed, and nothing else. -/
structure Rewired (m n : Module) (xs : List InstrId) : Prop where
  kept : ∀ i ∉ xs, n.code.instr i = m.code.instr i
  op : ∀ i, (n.instr i).op = (m.instr i).op
  parent : ∀ i, (n.instr i).parent = (m.instr i).parent
  rest : { n.code with instr := m.code.instr } = m.code

/-- A block `pre` of branches and phis is new, and other branches and phis may read differently. -/
structure Grown (m n : Module) (f : FuncId) (pre : BlockId) : Prop where
  lines : ∀ d, d ≠ pre → (n.block d).instrs = (m.block d).instrs
  added : ∀ i ∈ (n.block pre).instrs, ¬Plain n i ∧ (n.instr i).parent = some pre
  nodup : (n.block pre).instrs.Nodup
  parent : ∀ i b, (m.instr i).parent = some b → (n.instr i).parent = some b
  plain : ∀ i, Plain m i ∨ Plain n i → n.code.instr i = m.code.instr i
  layout : ∀ g b, b ∈ (n.func g).layout ↔ b ∈ (m.func g).layout ∨ g = f ∧ b = pre
  literal : n.code.literal = m.code.literal
  funcs : n.funcs = m.funcs

section
variable {m n k : Module} {f : FuncId} {h pre : BlockId} {i p : InstrId} {xs : List InstrId}
  {bs : List BlockId}

namespace Rewired

theorem refl (m : Module) (xs : List InstrId) : Rewired m m xs :=
  ⟨fun _ _ => rfl,fun _ => rfl,fun _ => rfl,rfl⟩

theorem trans (h : Rewired m n xs) (h' : Rewired n k xs) : Rewired m k xs := by
  refine ⟨fun i hi => (h'.kept i hi).trans (h.kept i hi),fun i => (h'.op i).trans (h.op i),
    fun i => (h'.parent i).trans (h.parent i),?_⟩
  have hr := congrArg (fun c : Code => { c with instr := m.code.instr }) h'.rest
  exact hr.trans h.rest

theorem of_code {l : List Operand} (hc : n.code = m.code.setOperands i l) (hi : i ∈ xs) :
    Rewired m n xs := by
  have hinstr : ∀ j, (n.code.instr j).op = (m.instr j).op ∧
      (n.code.instr j).parent = (m.instr j).parent := fun j => by
    rw [hc,Code.instr_setOperands]
    exact ⟨rfl,rfl⟩
  refine ⟨fun j hj => ?_,fun j => (hinstr j).1,fun j => (hinstr j).2,by rw [hc]; rfl⟩
  rw [hc]
  refine if_neg ?_
  rintro rfl
  exact hj hi

theorem foldl {α : Type} {g : Module → α → Module} (xs : List InstrId)
    (hg : ∀ m a, Rewired m (g m a) xs) (l : List α) (m : Module) :
    Rewired m (l.foldl g m) xs := by
  induction l generalizing m with
  | nil => exact refl m xs
  | cons a l ih => exact (hg m a).trans (ih (g m a))

end Rewired

theorem plain_congr (hop : (n.instr i).op = (m.instr i).op) : Plain n i ↔ Plain m i := by
  rw [Plain,Plain,hop]

theorem not_plain_size (m : Module) : ¬Plain m m.instrTable.size := by
  rw [Plain,get_instr_size]
  exact fun hp => Bool.noConfusion hp.2

namespace Grown

variable (hG : Grown m n f pre)
include hG

theorem plain_iff : Plain n i ↔ Plain m i := by
  have hop (hp : Plain m i ∨ Plain n i) : (n.instr i).op = (m.instr i).op := by
    rw [op_eq_code,hG.plain i hp]
    rfl
  exact ⟨fun hp => (plain_congr (hop (.inr hp))).mp hp,
    fun hp => (plain_congr (hop (.inl hp))).mpr hp⟩

theorem rewired (hr : Rewired n k xs) (hxs : ∀ i ∈ xs, ¬Plain n i) : Grown m k f pre := by
  have hinstrs : ∀ d, (k.block d).instrs = (n.block d).instrs := by
    intro d
    have := congrArg Block.instrs (congrFun (congrArg Code.block hr.rest) d)
    exact this
  have hplain : ∀ i, Plain k i ↔ Plain n i := fun i => plain_congr (hr.op i)
  refine ⟨fun d hd => (hinstrs d).trans (hG.lines d hd),fun i hi => ?_,hinstrs pre ▸ hG.nodup,
    fun i b hi => (hr.parent i).trans (hG.parent i b hi),fun i hi => ?_,fun g b => ?_,?_,?_⟩
  · rw [hplain,hr.parent]
    exact hG.added i (hinstrs pre ▸ hi)
  · rw [hplain] at hi
    refine (hr.kept i fun hx => ?_).trans (hG.plain i hi)
    exact hxs i hx (hi.elim hG.plain_iff.mpr id)
  · have := congrArg Func.layout (congrFun (congrArg Code.func hr.rest) g)
    rw [show (k.func g).layout = (n.func g).layout from this]
    exact hG.layout g b
  · exact (congrArg Code.literal hr.rest).trans hG.literal
  · exact (congrArg Code.funcs hr.rest).trans hG.funcs

theorem newPhi (t : Ty) : Grown m (n.newPhi pre t).1 f pre := by
  have hinstr := n.instr_newPhi (b := pre) t
  have hc : (n.counted pre.func t).code.literal = n.code.literal ∧
    (n.counted pre.func t).code.funcs = n.code.funcs ∧
      (∀ d, ((n.counted pre.func t).code.block d).instrs = (n.block d).instrs) ∧
      ∀ g, ((n.counted pre.func t).code.func g).layout = (n.func g).layout := by
    rw [code_counted]
    split
    · exact ⟨rfl,rfl,fun _ => rfl,fun _ => rfl⟩
    · refine ⟨rfl,rfl,fun _ => rfl,fun g => ?_⟩
      simp only [Code.modifyFunc]
      split
      · rename_i hg
        rw [← hg]
        rfl
      · rfl
  have hcode := n.code_newPhi pre t
  have hop := n.op_newPhi pre t
  generalize (n.newPhi pre t).1 = k at *
  have hkept : ∀ i, i ≠ n.instrTable.size → k.code.instr i = n.code.instr i :=
    fun i hi => (hinstr i).trans (if_neg hi)
  have hq : ¬Plain k n.instrTable.size := fun hp => hp.1 hop
  have hplain : ∀ {i}, Plain k i → Plain n i ∧ i ≠ n.instrTable.size := by
    intro i hp
    have hi : i ≠ n.instrTable.size := by
      rintro rfl
      exact hq hp
    exact ⟨(plain_congr (by rw [op_eq_code,hkept i hi]; rfl)).mp hp,hi⟩
  have hparent : ∀ i b, (n.instr i).parent = some b → (k.instr i).parent = some b := by
    intro i b hi
    have := congrArg Instr.parent (hkept i (Fronted.ne_size_of_parent hi))
    exact this.trans hi
  have hlines : ∃ c, (k.block pre).instrs =
      (n.block pre).instrs.take c ++ n.instrTable.size :: (n.block pre).instrs.drop c := by
    refine ⟨((n.makeInstr pre.func .phi t none []).1.phis pre).length,?_⟩
    rw [instrs_eq_code,hcode]
    simp only [Code.modifyBlock,Code.modifyInstr,Code.setInstr,if_true]
    rw [hc.2.2.1]
  obtain ⟨c,hlines⟩ := hlines
  refine ⟨fun d hd => ?_,fun i hi => ?_,?_,fun i b hi => hparent i b (hG.parent i b hi),
    fun i hi => ?_,fun g b => ?_,?_,?_⟩
  · rw [← hG.lines d hd,instrs_eq_code,hcode]
    simp only [Code.modifyBlock,if_neg (Ne.symm hd)]
    exact hc.2.2.1 d
  · -- what is at the top was there before, or it is the new phi
    rw [hlines,mem_append,mem_cons] at hi
    have hcases : i = n.instrTable.size ∨ i ∈ (n.block pre).instrs := by grind
    rcases hcases with rfl | hi
    · refine ⟨hq,?_⟩
      have := congrArg Instr.parent ((hinstr n.instrTable.size).trans (if_pos rfl))
      exact this
    · obtain ⟨hnp,hip⟩ := hG.added i hi
      exact ⟨fun hp => hnp (hplain hp).1,hparent i pre hip⟩
  · rw [hlines,nodup_middle,nodup_cons,take_append_drop]
    exact ⟨fun hm => Fronted.ne_size_of_parent (hG.added _ hm).2 rfl,hG.nodup⟩
  · have hp : Plain n i := hi.elim hG.plain_iff.mpr fun hp => (hplain hp).1
    refine (hkept i ?_).trans (hG.plain i (.inr hp))
    rintro rfl
    exact not_plain_size n hp
  · have hl : (k.func g).layout = (n.func g).layout := by
      have := congrArg Func.layout (congrFun (congrArg Code.func hcode) g)
      exact this.trans (hc.2.2.2 g)
    rw [hl]
    exact hG.layout g b
  · rw [hcode]
    exact hc.1.trans hG.literal
  · have := congrArg Code.funcs hcode
    exact (this.trans hc.2.1).trans hG.funcs

theorem splitPhi (l : Loop) (hp : ¬Plain n p) : Grown m (splitPhi l pre n p) f pre := by
  unfold Hoisting.splitPhi
  extract_lets outside
  split
  · exact hG
  · have h1 := hG.newPhi (n.instr p).type
    have hinstr := n.instr_newPhi (b := pre) (n.instr p).type p
    have hop := n.op_newPhi pre (n.instr p).type
    have hsnd := n.newPhi_snd pre (n.instr p).type
    generalize n.newPhi pre (n.instr p).type = r at *
    obtain ⟨k,q⟩ := r
    obtain rfl := hsnd
    dsimp only at *
    have hq : ¬Plain k n.instrTable.size := fun hp => hp.1 hop
    have hpk : ¬Plain k p := by
      by_cases hpq : p = n.instrTable.size
      · exact hpq ▸ hq
      · rw [if_neg hpq] at hinstr
        rwa [plain_congr (m := n) (by rw [op_eq_code,hinstr]; rfl)]
    have h2 := Rewired.foldl [p,n.instrTable.size]
      (g := fun m (x : Operand × BlockId) =>
        (m.addIncoming n.instrTable.size x.1 x.2).removeIncoming p x.2)
      (fun m x => (Rewired.of_code (code_addIncoming m _ x.1 x.2) (by simp)).trans
        (.of_code (code_removeIncoming _ p x.2) (by simp))) outside k
    refine h1.rewired (h2.trans (.of_code (code_addIncoming _ p _ pre) (by simp))) fun i hi => ?_
    rcases mem_pair.mp hi with rfl | rfl
    · exact hpk
    · exact hq

theorem splitPhis (l : Loop) (ps : List InstrId) (hps : ∀ p ∈ ps, ¬Plain m p) :
    Grown m (ps.foldl (Hoisting.splitPhi l pre) n) f pre := by
  induction ps generalizing n with
  | nil => exact hG
  | cons p ps ih =>
    obtain ⟨hp,hps⟩ := forall_mem_cons.mp hps
    exact ih (hG.splitPhi l (hG.plain_iff.not.mpr hp)) hps

end Grown

theorem Fronted.grown (hF : Fronted m n f bs h pre) : Grown m n f pre := by
  have hsize : ¬Plain n m.instrTable.size := by
    rw [Plain,op_eq_code,hF.branch]
    exact fun hp => Bool.noConfusion hp.2
  have hpre : (n.block pre).instrs = [m.instrTable.size] := by rw [hF.instrs,if_pos rfl]
  refine ⟨fun d hd => by rw [hF.instrs,if_neg hd],fun i hi => ?_,hpre ▸ nodup_singleton _,
    fun i b hi => ?_,fun i hi => ?_,fun g b => ?_,hF.literal,hF.funcs⟩
  · rw [hpre,mem_singleton] at hi
    exact hi ▸ ⟨hsize,hF.ends_pre.parent⟩
  · exact (hF.instr_old (ne_size_of_parent hi)).parent.trans hi
  · have his : i ≠ m.instrTable.size := by
      rintro rfl
      exact hi.elim (not_plain_size m) hsize
    have hp : Plain m i := hi.elim id (plain_congr (hF.instr_old his).op).mp
    refine hF.kept i his fun b _ hb => ?_
    exact Bool.noConfusion (hp.2.symm.trans hb.leaves)
  · rw [hF.layout]
    split
    · rename_i hg
      rw [mem_front,hg,or_comm]
      simp
    · rename_i hg
      simp [hg]

/-- A new preheader is none of the blocks there were, and it belongs to the loops around. -/
theorem Kept.grown {f : FuncId} {e : BlockId} {s s' : State} {k : Nat} (h : Kept f e s)
    (hk : k < s.forest.loops.length) {pre : BlockId}
    (heq : Hoisting.makePreheader f s k = (s',some pre)) :
    Grown s.module s'.module f pre ∧ pre.func = f ∧ pre ∉ (s.module.func f).layout ∧
      ∀ i, i < s.forest.loops.length →
        (s'.forest.loop i).preheader = (if k = i then some pre else (s.forest.loop i).preheader) ∧
        ∀ b, b ∈ (s'.forest.loop i).blocks ↔ b ∈ (s.forest.loop i).blocks ∨ b = pre ∧
          i ∈ s.forest.ancestors k := by
  obtain ⟨n,q,hF,_,heq'⟩ := h.exists_fronted hk
  obtain ⟨rfl,hq⟩ := Prod.mk.inj (heq.symm.trans heq')
  obtain rfl := Option.some.inj hq
  refine ⟨hF.grown.splitPhis _ _ fun p hp => ?_,by rw [hF.fresh],hF.notMem h.flow,fun i hi => ?_⟩
  · rw [← hF.grown.plain_iff]
    exact fun hpl => hpl.1 (op_of_mem_phis hp)
  · exact ⟨(h.forest.enlist_loop hk hi).2.2.1,
      ((h.forest.enlist_loop hk hi).2.2.2 (h.forest.number_notMem h.flow hF hi)).2⟩

end
end Hoisting
end CMinusF
