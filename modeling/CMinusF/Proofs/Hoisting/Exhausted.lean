import CMinusF.Proofs.Flow.Roots
import CMinusF.Proofs.Hoisting.Growth

/-! Loops from which nothing more can be hoisted. What can be hoisted depends only on which
instructions of a loop do what, not on their order, and not on branches and phis. -/
namespace CMinusF
open CMinusF.Module List

namespace Hoisting
variable {e : Effects} {l : Loop} {g : FuncId}

/-- The same instructions, apart from branches and phis. -/
structure SamePlain (m n : Module) : Prop where
  code : ∀ i, Plain m i ∨ Plain n i → (n.instr i).op = (m.instr i).op ∧ n.operands i = m.operands i
  literal : n.code.literal = m.code.literal

/-- What may change memory. -/
def Acts (m : Module) (p : Purity) (i : InstrId) : Prop :=
  (m.instr i).op = .store ∨ (m.instr i).op = .call ∧ isPureCall m p i = false

section
variable {m n k : Module} {p : Purity} {i : InstrId} {body body' found found' : List InstrId}
  {v r : Operand}

theorem Acts.plain (h : Acts m p i) : Plain m i := by
  rcases h with h | ⟨h,_⟩ <;> rw [Plain,h] <;> exact ⟨by simp,rfl⟩

theorem plain_of_canHoist (h : canHoist m p e body found i = true) : Plain m i :=
  (op_of_canHoist h).2

namespace SamePlain

theorem refl (m : Module) : SamePlain m m := ⟨fun _ _ => ⟨rfl,rfl⟩,rfl⟩

variable (h : SamePlain m n)
include h

theorem symm : SamePlain n m :=
  ⟨fun i hi => ⟨(h.code i hi.symm).1.symm,(h.code i hi.symm).2.symm⟩,h.literal.symm⟩

theorem plain_iff : Plain n i ↔ Plain m i :=
  ⟨fun hp => (plain_congr (h.code i (.inr hp)).1).mp hp,
    fun hp => (plain_congr (h.code i (.inl hp)).1).mpr hp⟩

theorem trans (h' : SamePlain n k) : SamePlain m k := by
  refine ⟨fun i hi => ?_,h'.literal.trans h.literal⟩
  have hn : Plain n i := hi.elim h.plain_iff.mpr h'.plain_iff.mp
  obtain ⟨h1,h2⟩ := h.code i (.inr hn)
  obtain ⟨h3,h4⟩ := h'.code i (.inl hn)
  exact ⟨h3.trans h1,h4.trans h2⟩

theorem operand_eq (hi : Plain m i) (x : Nat) : n.operand i x = m.operand i x := by
  rw [operand,operand,(h.code i (.inl hi)).2]

/-- Of an instruction that is neither a phi nor a branch the code says what it is. -/
theorem op_iff {op : Opcode} (hphi : op ≠ .phi) (hterm : op.isTerminator = false) :
    (n.instr i).op = op ↔ (m.instr i).op = op := by
  constructor
  · intro hop
    rwa [← (h.code i (.inr (by rw [Plain,hop]; exact ⟨hphi,hterm⟩))).1]
  · intro hop
    rwa [(h.code i (.inl (by rw [Plain,hop]; exact ⟨hphi,hterm⟩))).1]

theorem gep (i : InstrId) (hi : (m.instr i).op = .gep ∨ (n.instr i).op = .gep) :
    (n.instr i).op = (m.instr i).op ∧ n.operands i = m.operands i := by
  refine h.code i (hi.imp ?_ ?_) <;> intro hop <;> rw [Plain,hop] <;> exact ⟨by simp,rfl⟩

theorem memoryRoot_eq (hm : m.Grounded) (v : Operand) : n.memoryRoot v = m.memoryRoot v :=
  hm.memoryRoot_eq h.gep v

theorem isLocalObject_eq (v : Operand) : n.isLocalObject v = m.isLocalObject v := by
  cases v with
  | instr i => exact decide_eq_decide.mpr (h.op_iff (by simp) rfl)
  | _ => rfl

theorem isNamedObject_eq (v : Operand) : isNamedObject n v = isNamedObject m v := by
  cases v with
  | instr i => exact h.isLocalObject_eq (.instr i)
  | _ => rfl

theorem callee?_eq (hi : Plain m i) : n.callee? i = m.callee? i := by
  rw [callee?,callee?,(h.code i (.inl hi)).1,(h.code i (.inl hi)).2]

theorem isPureCall_eq (hi : Plain m i) : isPureCall n p i = isPureCall m p i := by
  rw [isPureCall,isPureCall,h.callee?_eq hi]

theorem speculatable_eq (hi : Plain m i) : n.speculatable i = m.speculatable i := by
  have hlit : ∀ c, (n.literal c).value = (m.literal c).value := congrFun h.literal
  rw [speculatable,speculatable,(h.code i (.inl hi)).1,h.operand_eq hi]
  simp only [hlit]

theorem acts_iff : Acts n p i ↔ Acts m p i := by
  refine or_congr (h.op_iff (by simp) rfl) ?_
  rw [h.op_iff (by simp) rfl]
  refine and_congr_right fun hop => ?_
  rw [h.isPureCall_eq (by rw [Plain,hop]; exact ⟨by simp,rfl⟩)]

end SamePlain

/-! What a loop does to memory. -/

def Spares (m : Module) (r : Operand) (i : InstrId) : Prop :=
  if isNamedObject m r then m.memoryRoot (m.operand i 1) ≠ r ∧
    isNamedObject m (m.memoryRoot (m.operand i 1)) = true
  else m.isLocalObject (m.memoryRoot (m.operand i 1)) = true

theorem keeps_iff : (Effects.ofInstrs m p body).keeps m r = true ↔
    ∀ i ∈ body, Acts m p i → (m.instr i).op = .store ∧ Spares m r i := by
  have hcall : (Effects.ofInstrs m p body).impureCall = false ↔ ∀ i ∈ body, (m.instr i).op = .call →
      isPureCall m p i = true := by
    simp [Effects.ofInstrs]
  have hstore : (if isNamedObject m r then decide (r ∉ (Effects.ofInstrs m p body).stored) &&
    !(Effects.ofInstrs m p body).unknownStore
      else !(Effects.ofInstrs m p body).nonLocal) = true ↔ ∀ i ∈ body, (m.instr i).op = .store →
        Spares m r i := by
    unfold Spares
    cases isNamedObject m r
    · simp [Effects.ofInstrs]
    · simp only [Effects.ofInstrs]
      simp
      grind
  rw [Effects.keeps,Bool.and_eq_true,Bool.not_eq_true',hcall,hstore]
  constructor
  · rintro ⟨h1,h2⟩ i hi (hop | ⟨hop,hpure⟩)
    · exact ⟨hop,h2 i hi hop⟩
    · rw [h1 i hi hop] at hpure
      cases hpure
  · intro h
    refine ⟨fun i hi hop => ?_,fun i hi hop => (h i hi (.inl hop)).2⟩
    by_contra hpure
    have := (h i hi (.inr ⟨hop,eq_false_of_ne_true hpure⟩)).1
    rw [hop] at this
    cases this

theorem SamePlain.keeps (h : SamePlain m n) (hm : m.Grounded)
    (hacts : ∀ i ∈ body', Acts n p i → i ∈ body)
    (hk : (Effects.ofInstrs m p body).keeps m r = true) :
    (Effects.ofInstrs n p body').keeps n r = true := by
  rw [keeps_iff] at hk ⊢
  intro i hi ha
  obtain ⟨hop,hspares⟩ := hk i (hacts i hi ha) (h.acts_iff.mp ha)
  have hp : Plain m i := (h.acts_iff.mp ha).plain
  refine ⟨(h.op_iff (by simp) rfl).mpr hop,?_⟩
  rw [Spares,h.isNamedObject_eq,h.operand_eq hp,h.memoryRoot_eq hm,h.isNamedObject_eq,
    h.isLocalObject_eq]
  exact hspares

/-- An instruction that can be hoisted out of one loop can be hoisted out of another one that
changes no more memory and to which no more of its operands belong. -/
theorem SamePlain.canHoist (h : SamePlain m n) (hm : m.Grounded)
    (hc : canHoist m p (.ofInstrs m p body) body found i = true)
    (hacts : ∀ i ∈ body', Acts n p i → i ∈ body)
    (hset : ∀ v, settled body found v = true → settled body' found' v = true) :
    canHoist n p (.ofInstrs n p body') body' found' i = true := by
  have hp := plain_of_canHoist hc
  have hall : ∀ vs : List Operand, vs.all (settled body found) = true →
    vs.all (settled body' found') = true := fun vs hvs =>
    all_eq_true.mpr fun v hv => hset v (all_eq_true.mp hvs v hv)
  unfold Hoisting.canHoist at hc ⊢
  rw [(h.code i (.inl hp)).1]
  generalize hop : (m.instr i).op = op at hc ⊢
  cases op with
  | ret | br | store | phi => exact hc
  | call =>
    rw [Bool.and_eq_true] at hc ⊢
    rw [h.isPureCall_eq hp,callArgs,(h.code i (.inl hp)).1,(h.code i (.inl hp)).2]
    exact ⟨hc.1,hall _ hc.2⟩
  | load =>
    rw [Bool.and_eq_true] at hc ⊢
    rw [h.operand_eq hp,h.memoryRoot_eq hm]
    exact ⟨hset _ hc.1,h.keeps hm hacts hc.2⟩
  | _ =>
    rw [Bool.and_eq_true] at hc ⊢
    rw [h.speculatable_eq hp,(h.code i (.inl hp)).2]
    exact ⟨hc.1,hall _ hc.2⟩

/-! Nothing more to hoist. -/

def Exhausted (m : Module) (p : Purity) (body : List InstrId) : Prop :=
  ∀ i ∈ body, canHoist m p (.ofInstrs m p body) body [] i = false

theorem Exhausted.congr (hE : Exhausted m p body) (h : SamePlain m n) (hm : m.Grounded)
    (hb : ∀ i, i ∈ body' ↔ i ∈ body) :
    Exhausted n p body' := by
  intro i hi
  by_contra hc
  have hset : ∀ v, settled body' [] v = true → settled body [] v = true := by
    intro v hv
    cases v with
    | instr j => simpa [settled,hb] using hv
    | _ => rfl
  have := h.symm.canHoist (hm.congr h.gep) (Bool.not_eq_false _ ▸ hc)
    (fun i hi _ => (hb i).mpr hi) hset
  rw [hE i ((hb i).mp hi)] at this
  cases this

theorem Ordered.avoids (ho : Ordered m p (.ofInstrs m p body) body found) (hE : Exhausted m p body')
    (hm : m.Grounded) (hsub : ∀ i ∈ body', i ∈ body) : ∀ i ∈ found, i ∉ body' := by
  induction ho with
  | nil => simp
  | @snoc found i _ _ _ hc ih =>
    intro j hj hjb
    rcases mem_append.mp hj with hj | hj
    · exact ih j hj hjb
    · -- its operands are outside or among those found before, which are outside
      obtain rfl := mem_singleton.mp hj
      have hset : ∀ v, settled body found v = true → settled body' [] v = true := by
        intro v hv
        cases v with
        | instr x =>
          simp only [settled,Bool.or_eq_true,decide_eq_true_eq,not_mem_nil,or_false] at hv ⊢
          exact hv.elim (fun hx hxb => hx (hsub x hxb)) fun hx => ih x hx
        | _ => rfl
      have := (SamePlain.refl m).canHoist hm hc (fun i hi _ => hsub i hi) hset
      rw [hE j hjb] at this
      cases this

/-! The search for invariants is complete. -/

theorem Ordered.subset (ho : Ordered m p e body found) : found ⊆ body := by
  intro i hi
  obtain ⟨xs,ys,hs⟩ := append_of_mem hi
  exact (ho.split hs).1

theorem length_sweep (m : Module) (p : Purity) (e : Effects) (body found : List InstrId) :
    found.length ≤ (sweep m p e body found).length ∧
    ((sweep m p e body found).length = found.length → ∀ i ∈ body, i ∉ found →
      Hoisting.canHoist m p e body found i = false) := by
  have key : ∀ is found : List InstrId,
      let r := is.foldl (fun found i => if i ∉ found && Hoisting.canHoist m p e body found i
        then found ++ [i] else found) found
      found.length ≤ r.length ∧ (r.length = found.length → ∀ i ∈ is, i ∉ found →
        Hoisting.canHoist m p e body found i = false) := by
    intro is
    induction is with
    | nil => exact fun found => ⟨Nat.le_refl _,by simp⟩
    | cons i is ih =>
      intro found
      dsimp only
      rw [foldl_cons]
      by_cases hc : (i ∉ found && Hoisting.canHoist m p e body found i) = true
      · rw [if_pos hc]
        have hle := (ih (found ++ [i])).1
        rw [length_append,length_singleton] at hle
        exact ⟨by omega,fun heq => by omega⟩
      · rw [if_neg hc]
        obtain ⟨hle,hall⟩ := ih found
        refine ⟨hle,fun heq => forall_mem_cons.mpr ⟨fun hi => ?_,hall heq⟩⟩
        simpa [hi] using hc
  exact key body found

theorem complete_invariantsFrom (fuel : Nat) (ho : Ordered m p e body found)
    (hlen : body.length < fuel + found.length) :
    ∀ i ∈ body, i ∉ invariantsFrom m p e body fuel found →
      Hoisting.canHoist m p e body (invariantsFrom m p e body fuel found) i = false := by
  induction fuel generalizing found with
  | zero =>
    have := (subperm_of_subset ho.nodup ho.subset).length_le
    omega
  | succ fuel ih =>
    obtain ⟨hle,hall⟩ := length_sweep m p e body found
    rw [invariantsFrom]
    split
    · rename_i heq
      exact hall heq
    · exact ih ho.sweep (by omega)

theorem mem_invariants (hi : i ∈ bodyOf m l)
    (hc : Hoisting.canHoist m p (.ofInstrs m p (bodyOf m l)) (bodyOf m l) (invariants m p l) i =
      true) : i ∈ invariants m p l := by
  by_contra hnot
  have := complete_invariantsFrom (e := .ofInstrs m p (bodyOf m l)) ((bodyOf m l).length + 1) .nil
    (by simp) i hi hnot
  exact Bool.noConfusion (hc.symm.trans this)

theorem exhausted_iff : Exhausted m p (bodyOf m l) ↔ invariants m p l = [] := by
  constructor
  · intro hE
    cases hs : invariants m p l with
    | nil => rfl
    | cons i is =>
      obtain ⟨hi,hc⟩ := (ordered_invariants m p l).split (show _ = [] ++ i :: is from hs)
      exact Bool.noConfusion (hc.symm.trans (hE i hi))
  · intro hnil i hi
    by_contra hc
    have := mem_invariants hi (hnil.symm ▸ Bool.not_eq_false _ ▸ hc)
    rw [hnil] at this
    cases this

theorem exhausted_of_left {l' : Loop} (h : SamePlain m n) (hm : m.Grounded)
    (hb : ∀ i, i ∈ bodyOf n l' ↔ i ∈ bodyOf m l ∧ i ∉ invariants m p l) :
    Exhausted n p (bodyOf n l') := by
  intro i hi
  by_contra hc
  obtain ⟨hib,hnot⟩ := (hb i).mp hi
  refine hnot (mem_invariants hib (h.symm.canHoist (hm.congr h.gep) (Bool.not_eq_false _ ▸ hc)
    (fun j hj ha => (hb j).mpr ⟨hj,fun hjf => ?_⟩) fun v hv => ?_))
  · -- what changes memory is not hoisted
    obtain ⟨xs,ys,hs⟩ := append_of_mem hjf
    have hcj := ((ordered_invariants m p l).split hs).2
    rcases ha with hop | ⟨hop,hpure⟩
    · exact (op_of_canHoist hcj).1 hop
    · rw [Hoisting.canHoist,hop,hpure] at hcj
      cases hcj
  · cases v with
    | instr j =>
      simp only [settled,Bool.or_eq_true,decide_eq_true_eq,not_mem_nil,or_false] at hv ⊢
      grind
    | _ => rfl

/-! Purity. -/

/-- The same functions with the same instructions, apart from branches and phis. -/
structure Alike (m n : Module) : Prop extends SamePlain m n where
  funcs : n.funcs = m.funcs
  empty : ∀ g, (n.func g).layout = [] ↔ (m.func g).layout = []
  mem_iff : ∀ g ∈ m.funcs, ∀ i, Plain m i → (i ∈ n.instrs g ↔ i ∈ m.instrs g)

namespace Alike

theorem refl (m : Module) : Alike m m := ⟨.refl m,rfl,fun _ => Iff.rfl,fun _ _ _ _ => Iff.rfl⟩

theorem trans (h : Alike m n) (h' : Alike n k) : Alike m k :=
  ⟨h.toSamePlain.trans h'.toSamePlain,h'.funcs.trans h.funcs,
    fun g => (h'.empty g).trans (h.empty g),fun g hg i hi =>
    (h'.mem_iff g (h.funcs.symm ▸ hg) i (h.plain_iff.mpr hi)).trans (h.mem_iff g hg i hi)⟩

/-- What holds of all branches and phis holds of a function if it held of it before. -/
theorem forall_iff (h : Alike m n) {P Q : InstrId → Prop} (hg : g ∈ m.funcs)
    (hplain : ∀ i, Plain m i → (Q i ↔ P i)) (hP : ∀ i, ¬Plain m i → P i)
    (hQ : ∀ i, ¬Plain n i → Q i) : (∀ i ∈ n.instrs g, Q i) ↔ ∀ i ∈ m.instrs g, P i := by
  constructor
  · intro hall i hi
    by_cases hp : Plain m i
    · exact (hplain i hp).mp (hall i ((h.mem_iff g hg i hp).mpr hi))
    · exact hP i hp
  · intro hall i hi
    by_cases hp : Plain m i
    · exact (hplain i hp).mpr (hall i ((h.mem_iff g hg i hp).mp hi))
    · exact hQ i (h.plain_iff.not.mpr hp)

theorem harmless_of_not_plain (hp : ¬Plain m i) : m.harmless i = true := by
  unfold harmless speculatable address?
  generalize hop : (m.instr i).op = op
  rw [Plain,hop] at hp
  cases op <;> first | rfl | exact absurd ⟨by simp,rfl⟩ hp

theorem harmless_eq (h : SamePlain m n) (hm : m.Grounded) (hp : Plain m i) :
    n.harmless i = m.harmless i := by
  have haddress : n.address? i = m.address? i := by
    rw [address?,address?,(h.code i (.inl hp)).1,h.operand_eq hp,h.operand_eq hp]
  rw [harmless,harmless,h.speculatable_eq hp,haddress]
  simp only [h.memoryRoot_eq hm,h.isLocalObject_eq]

theorem calls_iff (h : Alike m n) (hg : g ∈ m.funcs) (p : Purity) :
    (Purity.callees n g).all p.isPure = (Purity.callees m g).all p.isPure := by
  have hnone : ∀ {m : Module} {i : InstrId} {c : FuncId}, ¬Plain m i → m.callee? i = some c →
      p.isPure c = true := by
    intro m i c hp hc
    refine absurd ?_ hp
    unfold callee? at hc
    split at hc
    · rename_i hop _
      rw [Plain,hop]
      exact ⟨by simp,rfl⟩
    · cases hc
  have hiff : ∀ m : Module, (Purity.callees m g).all p.isPure = true ↔
      ∀ i ∈ m.instrs g, ∀ c, m.callee? i = some c → p.isPure c = true := by
    intro m
    simp only [Purity.callees,all_eq_true,mem_filterMap]
    grind
  rw [Bool.eq_iff_iff,hiff,hiff]
  exact h.forall_iff hg (fun i hp => by rw [h.callee?_eq hp]) (fun _ hp _ => hnone hp)
    fun _ hp _ => hnone hp

theorem sweep_eq (h : Alike m n) (p : Purity) : Purity.sweep n p = Purity.sweep m p := by
  rw [Purity.sweep,Purity.sweep,h.funcs]
  refine foldl_ext _ _ _ fun s f hf => ?_
  rw [Purity.visit_eq,Purity.visit_eq,h.calls_iff hf]

theorem settle_eq (h : Alike m n) (p : Purity) : Purity.settle n p = Purity.settle m p := by
  fun_induction Purity.settle m p with
  | case1 p s hs ih => rw [Purity.settle,h.sweep_eq,if_pos hs,ih]
  | case2 p s hs => rw [Purity.settle,h.sweep_eq,if_neg hs]

theorem purity_eq (h : Alike m n) (hm : m.Grounded) : n.purity = m.purity := by
  have hstart : (n.funcs.filter fun f => !(n.func f).isDeclaration && (n.instrs f).all n.harmless) =
      m.funcs.filter fun f => !(m.func f).isDeclaration && (m.instrs f).all m.harmless := by
    rw [h.funcs]
    refine filter_congr fun g hg => ?_
    have hdecl : (n.func g).isDeclaration = (m.func g).isDeclaration := by
      rw [Bool.eq_iff_iff,Func.isDeclaration,Func.isDeclaration,List.isEmpty_iff,List.isEmpty_iff]
      exact h.empty g
    have hall : (n.instrs g).all n.harmless = (m.instrs g).all m.harmless := by
      rw [Bool.eq_iff_iff,all_eq_true,all_eq_true]
      exact h.forall_iff hg (fun i hp => by rw [harmless_eq h.toSamePlain hm hp])
        (fun _ => harmless_of_not_plain)
        fun _ => harmless_of_not_plain
    rw [hdecl,hall]
  rw [Module.purity,Module.purity,hstart,h.settle_eq]

end Alike

end
end Hoisting
end CMinusF
