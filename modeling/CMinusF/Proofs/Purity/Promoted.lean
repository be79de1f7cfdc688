import CMinusF.Proofs.Promotion.Modules
import CMinusF.Proofs.Purity.Runs
import CMinusF.Proofs.Safety.Memory

/-! What lowering sees to and promotion leaves alone: reads and writes go to the start of a
variable, unless an index has been checked before. -/
namespace CMinusF
open Numeric List
variable {m : Module} {i : InstrId} {g : FuncId} {v : Operand}

/-- A global, or what an `alloca` makes. -/
def Module.IsObject (m : Module) (r : Operand) : Prop :=
  (∃ g, r = .global g) ∨ ∃ s, r = .instr s ∧ (m.instr s).op = .alloca

def Module.IsVariable (m : Module) (p : Operand) : Prop := ∃ r, m.StartsAt p r ∧ m.IsObject r

/-- A block that calls a function without code leads here. -/
def Module.Fenced (m : Module) (f : FuncId) (b : BlockId) : Prop :=
  ∃ q ∈ (m.func f).layout, b ∈ m.succs q ∧
    ∃ i ∈ (m.block q).instrs, ∃ g ∈ m.funcs, m.callee? i = some g ∧ (m.func g).isDeclaration = true

structure Tame (m : Module) (f : FuncId) (e : BlockId) : Prop where
  reached : ∀ b ∈ (m.func f).layout, m.Reaches e b
  known : ∀ i ∈ m.instrs f, ∀ k, (m.instr i).op ≠ .unknown k
  literal : ∀ i ∈ m.instrs f, (m.instr i).op ≠ .phi → ∀ c, .literal c ∈ m.operands i →
    ∀ k, (m.literal c).value = .int k → IsWord k
  load : ∀ b ∈ (m.func f).layout, ∀ i ∈ (m.block b).instrs, (m.instr i).op = .load →
    m.IsVariable (m.operand i 0) ∨ m.Fenced f b
  store : ∀ i ∈ m.instrs f, (m.instr i).op = .store → m.IsVariable (m.operand i 1) ∨
    ∃ b ∈ (m.func f).layout, m.Fenced f b

theorem Module.op_of_callee? (h : m.callee? i = some g) : (m.instr i).op = .call := by
  unfold callee? at h
  split at h
  · assumption
  · cases h

namespace Promotes
variable {m' : Module} {f : FuncId} {e b : BlockId} {P : Plan} {j l : InstrId}
  {pre is : List InstrId} {V : InstrId → Option Operand}

theorem op_of_loadOf? (h : (P.loadOf? m l).isSome = true) : (m.instr l).op = .load := by
  obtain ⟨a,ha⟩ := Option.isSome_iff_exists.mp h
  exact ((Plan.loadOf?_eq_some ..).mp ha).1

theorem subst_of_ne_load (h : (m.instr j).op ≠ .load) : P.subst m (.instr j) = .instr j := by
  simp [Plan.subst,Plan.loadOf?,h]

section
variable (hP : Promotes m m' f e P)
include hP

theorem keeps_of_op (ha : (m.instr i).op ≠ .alloca) (hl : (m.instr i).op ≠ .load)
    (hs : (m.instr i).op ≠ .store) :
    P.keeps m i = true := by
  refine (Plan.keeps_iff ..).mpr ⟨?_,by simp [Plan.loadOf?,hl],by simp [Plan.storeOf?,hs]⟩
  by_contra hp
  exact ha (hP.alloca i (by simpa using hp)).2

theorem keeps_alloca (hi : i ∈ m.instrs f) (hk : P.keeps m i = true) (hj : .instr j ∈ m.operands i)
    (hop : (m.instr j).op = .alloca) : P.keeps m j = true :=
  (Plan.keeps_iff ..).mpr ⟨hP.unmentioned i hi hk j hj,by simp [Plan.loadOf?,hop],
    by simp [Plan.storeOf?,hop]⟩

theorem mem_instrs (hb : b ∈ (m.func f).layout) (hi : i ∈ (m'.block b).instrs) :
    (m'.instr i).op = .phi ∨ i ∈ (m.block b).instrs ∧ P.keeps m i = true := by
  rw [hP.block b hb] at hi
  rcases mem_append.mp hi with hi | hi
  · rcases mem_append.mp hi with hi | hi
    · exact .inr ⟨m.phis_subset b hi,hP.keeps_phi (Module.op_of_mem_phis hi)⟩
    · exact .inl (hP.newPhi b hb i hi)
  · obtain ⟨hi,hk⟩ := mem_filter.mp hi
    exact .inr ⟨m.body_subset b hi,hk⟩

theorem mem_instrs_of_keeps (hb : b ∈ (m.func f).layout) (hi : i ∈ (m.block b).instrs)
    (hk : P.keeps m i = true) : i ∈ (m'.block b).instrs := by
  rw [hP.block b hb]
  rw [m.instrs_eq_phis_append] at hi
  rcases mem_append.mp hi with hi | hi
  · exact mem_append_left _ (mem_append_left _ hi)
  · exact mem_append_right _ (mem_filter.mpr ⟨hi,hk⟩)

theorem operand_eq (hi : i ∈ m.instrs f) (hk : P.keeps m i = true) (k : Nat) :
    m'.operand i k = P.subst m (m.operand i k) := by
  rw [Module.operand,Module.operand,(hP.instr i hi hk).2.2.2,getD_eq_getElem?_getD,
    getD_eq_getElem?_getD,getElem?_map]
  cases (m.operands i)[k]? <;> rfl

theorem callee?_eq (hi : i ∈ m.instrs f) (hg : m.callee? i = some g) :
    P.keeps m i = true ∧ m'.callee? i = some g := by
  have hop := Module.op_of_callee? hg
  have hk := hP.keeps_of_op (i := i) (by simp [hop]) (by simp [hop]) (by simp [hop])
  obtain ⟨ho,-,-,hv⟩ := hP.instr i hi hk
  refine ⟨hk,?_⟩
  rw [Module.callee?,hop] at hg
  rw [Module.callee?,ho,hop,hv]
  cases hops : m.operands i with
  | nil =>
    rw [hops] at hg
    cases hg
  | cons v vs =>
    rw [hops] at hg
    cases v <;> first | exact hg | cases hg

end

/-- A literal that is an integer is one of a machine word. -/
def IsFair (m : Module) (v : Operand) : Prop :=
  ∀ c, v = .literal c → ∀ k, (m.literal c).value = .int k → IsWord k

theorem isFair_of_ne (h : ∀ c, v ≠ .literal c) : IsFair m v := fun c hc => absurd hc (h c)

/-- What a store leaves in a local is fair if the loads before it were. -/
theorem isFair_subst (hP : Promotes m m' f e P) (hm : Tame m f e) (hi : i ∈ m.instrs f)
    (hop : (m.instr i).op ≠ .phi) (hv : v ∈ m.operands i)
    (hl : ∀ l, v = .instr l → (P.loadOf? m l).isSome = true → IsFair m' (P.value l)) :
    IsFair m' (P.subst m v) := by
  cases v with
  | literal c =>
    rintro c' hc k hk
    cases hc
    exact hm.literal i hi hop c hv k ((hP.literal i hi c hv).symm.trans hk)
  | instr l =>
    rw [Plan.subst]
    split
    · exact hl l rfl ‹_›
    · exact isFair_of_ne fun _ => Operand.noConfusion
  | _ => exact isFair_of_ne fun _ => Operand.noConfusion

def FairValues (m' : Module) (V : InstrId → Option Operand) : Prop :=
  ∀ x v, V x = some v → IsFair m' v

def FairLoads (m m' : Module) (P : Plan) (is : List InstrId) : Prop :=
  ∀ l ∈ is, (P.loadOf? m l).isSome = true → IsFair m' (P.value l)

section
variable (hF : Formed m f e)
include hF

/-- The loads of a block stand for fair values if locals are worth such at its start. -/
theorem fair_through (hP : Promotes m m' f e P) (hm : Tame m f e) (hb : m.Reaches e b)
    (hbody : m.body b = pre ++ is) (hV : FairValues m' V) (hfed : LoadsFed m m' P V is)
    (hpre : FairLoads m m' P pre)
    (hdom : ∀ c, c ≠ b → m.Dominates e c b → FairLoads m m' P (m.body c)) :
    FairValues m' (P.through m V is) ∧ FairLoads m m' P is := by
  induction is generalizing pre V with
  | nil => exact ⟨hV,fun _ h => absurd h not_mem_nil⟩
  | cons i is ih =>
    obtain ⟨hload,hrest⟩ := hfed
    have hib : i ∈ m.body b := by rw [hbody]; simp
    have hi : i ∈ m.instrs f := hF.mem_instrs hb (m.body_subset b hib)
    have hop := hF.not_phi b (hF.mem_layout hb) i hib
    have hvalue : (P.loadOf? m i).isSome = true → IsFair m' (P.value i) := by
      intro hs
      obtain ⟨a,ha⟩ := Option.isSome_iff_exists.mp hs
      rcases hload a ha with hv | ⟨-,c,t,hv,hc⟩
      · exact hV a _ hv
      · intro c' hc' k hk
        grind
    have hearlier : ∀ l, .instr l ∈ m.operands i → (P.loadOf? m l).isSome = true →
        IsFair m' (P.value l) := by
      intro l hl hs
      have hlop := op_of_loadOf? hs
      have hav := hF.dominated b hb (m.phis b ++ pre) i is
        (by rw [m.instrs_eq_phis_append,hbody,append_assoc])
        (fun hp => hop (Module.op_of_mem_phis hp)) l hl
      rcases hav with hl | ⟨c,hc,hd,hl⟩
      · refine hpre l ((mem_append.mp hl).resolve_left fun hp => ?_) hs
        rw [Module.op_of_mem_phis hp] at hlop
        cases hlop
      · exact hdom c hc hd l (Module.mem_body_of_not_phi hl (by simp [hlop])) hs
    have hafter : FairValues m' (P.after m V i) := by
      intro x v hx
      rw [Plan.after] at hx
      split at hx
      · cases hx
        by_cases hhole : m.operand i 0 = .hole
        · rw [hhole]
          exact isFair_of_ne fun _ => Operand.noConfusion
        · have hmem : m.operand i 0 ∈ m.operands i := Module.mem_operands_of_operand rfl hhole
          exact isFair_subst hP hm hi hop hmem fun l hl => hearlier l (hl ▸ hmem)
      · exact hV x v hx
    have hpre' : FairLoads m m' P (pre ++ [i]) := by
      intro l hl
      rcases mem_append.mp hl with hl | hl
      · exact hpre l hl
      · rw [mem_singleton.mp hl]
        exact hvalue
    have hbody' : m.body b = (pre ++ [i]) ++ is := by rw [hbody,append_assoc,singleton_append]
    obtain ⟨h1,h2⟩ := ih hbody' hafter hrest hpre'
    exact ⟨h1,forall_mem_cons.mpr ⟨hvalue,h2⟩⟩

/-- Every load stands for a fair value: by induction on the way to a block, for all blocks that
dominate it. -/
theorem fair_of_dominates (hP : Promotes m m' f e P) (hm : Tame m f e) (hb : m.Reaches e b) :
    ∀ c, m.Dominates e c b → FairValues m' (P.finish c) ∧ FairLoads m m' P (m.body c) := by
  have block : ∀ {b}, m.Reaches e b → FairValues m' (P.start b) →
    (∀ c, c ≠ b → m.Dominates e c b → FairLoads m m' P (m.body c)) →
      FairValues m' (P.finish b) ∧ FairLoads m m' P (m.body b) := by
    intro b hb hstart hdom
    rw [hP.finish b hb]
    have hbody : m.body b = [] ++ m.body b := rfl
    exact fair_through hF hP hm hb hbody hstart (hP.fed b hb) (fun _ h => absurd h not_mem_nil) hdom
  obtain ⟨bs,ht⟩ := hb
  induction ht with
  | start =>
    have only : ∀ c, m.Dominates e c e → c = e := fun c hc => mem_singleton.mp (hc _ .start)
    intro c hc
    rw [only c hc]
    exact block (.refl m e) (fun x v hv => by rw [hP.start_entry x] at hv; cases hv) fun c hne hd =>
      absurd (only c hd) hne
  | @step b c bs ht hc ih =>
    have hb : m.Reaches e b := ⟨bs,ht⟩
    have hcr := hb.step hc
    intro d hd
    by_cases hdc : d = c
    · subst hdc
      refine block hcr (fun x v hv => ?_) fun d' hne hd' => (ih d' (hd'.of_succ hc hne)).2
      by_cases hx : ∃ p ∈ P.newPhis d, P.localOf p = x
      · obtain ⟨p,hp,rfl⟩ := hx
        cases (hP.start_phi d hcr p hp).symm.trans hv
        exact isFair_of_ne fun _ => Operand.noConfusion
      · have hsame := (hP.start_same d hcr x fun p hp he => hx ⟨p,hp,he⟩).1 b hb hc
        exact (ih b (.refl m e b)).1 x v (hsame.symm.trans hv)
    · exact ih d (hd.of_succ hc hdc)

/-! Addresses and calls. -/

theorem mem_instrs_of_operand (hreach : ∀ b ∈ (m.func f).layout, m.Reaches e b)
    (hi : i ∈ m.instrs f) (hop : (m.instr i).op ≠ .phi) (hj : .instr j ∈ m.operands i) :
    j ∈ m.instrs f := by
  obtain ⟨b,hb,hib⟩ := Module.mem_instrs_iff.mp hi
  obtain ⟨pre,post,hs⟩ := append_of_mem hib
  rcases hF.dominated b (hreach b hb) pre i post hs (fun hp => hop (Module.op_of_mem_phis hp)) j hj
    with hj | ⟨c,-,hd,hj⟩
  · exact Module.mem_instrs_iff.mpr ⟨b,hb,hs ▸ mem_append_left _ hj⟩
  · exact hF.mem_instrs (hd.reaches (hreach b hb)) hj

theorem isObject (hP : Promotes m m' f e P) (hreach : ∀ b ∈ (m.func f).layout, m.Reaches e b)
    (hi : i ∈ m.instrs f) (hop : (m.instr i).op ≠ .phi) (hk : P.keeps m i = true)
    (hv : v ∈ m.operands i) (h : m.IsObject v) :
    P.subst m v = v ∧ m'.IsObject v ∧ ∀ s, v = .instr s → (m'.instr s).op = (m.instr s).op := by
  rcases h with ⟨g,rfl⟩ | ⟨s,rfl,hs⟩
  · exact ⟨rfl,.inl ⟨g,rfl⟩,fun _ => Operand.noConfusion⟩
  · have hop := (hP.instr s (mem_instrs_of_operand hF hreach hi hop hv)
      (hP.keeps_alloca hi hk hv hs)).1
    refine ⟨subst_of_ne_load (by simp [hs]),.inr ⟨s,rfl,hop.trans hs⟩,fun s' h => ?_⟩
    cases h
    exact hop

theorem startsAt (hP : Promotes m m' f e P) (hreach : ∀ b ∈ (m.func f).layout, m.Reaches e b)
    (hi : i ∈ m.instrs f) (hop : (m.instr i).op ≠ .phi) (hk : P.keeps m i = true)
    (hv : v ∈ m.operands i) {r : Operand} (h : m.StartsAt v r) (hr : m.IsObject r) :
    m'.StartsAt (P.subst m v) r ∧ m'.IsObject r ∧ ∀ s, r = .instr s →
      (m'.instr s).op = (m.instr s).op := by
  rcases h with rfl | ⟨j,z,z',rfl,hg,hops,c,rfl,hz⟩
  · obtain ⟨hs,hr⟩ := isObject hF hP hreach hi hop hk hv hr
    exact ⟨.inl hs,hr⟩
  · have hj := mem_instrs_of_operand hF hreach hi hop hv
    have hkj := hP.keeps_of_op (i := j) (by simp [hg]) (by simp [hg]) (by simp [hg])
    have hmem : ∀ u, u ∈ [r,z,.literal c] → u ∈ m.operands j := fun u hu => hops ▸ hu
    obtain ⟨hs,hr⟩ := isObject hF hP hreach hj (by simp [hg]) hkj (hmem r (by simp)) hr
    obtain ⟨ho,-,-,hv⟩ := hP.instr j hj hkj
    refine ⟨.inr ⟨j,P.subst m z,.literal c,subst_of_ne_load (by simp [hg]),ho.trans hg,?_,
      c,rfl,?_⟩,hr⟩
    · rw [hv,hops,map_cons,hs]
      rfl
    · rw [hP.literal j hj c (hmem _ (by simp)),hz]

theorem isVariable (hP : Promotes m m' f e P) (hreach : ∀ b ∈ (m.func f).layout, m.Reaches e b)
    (hi : i ∈ m.instrs f) (hop : (m.instr i).op ≠ .phi) (hk : P.keeps m i = true) {k : Nat}
    (h : m.IsVariable (m.operand i k)) : m'.IsVariable (m'.operand i k) := by
  obtain ⟨r,hs,hr⟩ := h
  have hne : m.operand i k ≠ .hole := hs.ne_hole <| by
    rintro rfl
    obtain ⟨g,hg⟩ | ⟨s,hs,-⟩ := hr
    · cases hg
    · cases hs
  obtain ⟨hs',hr',-⟩ :=
    startsAt hF hP hreach hi hop hk (Module.mem_operands_of_operand rfl hne) hs hr
  exact ⟨r,hP.operand_eq hi hk k ▸ hs',hr'⟩

theorem tame (hP : Promotes m m' f e P) (hm : Tame m f e) (hsuccs : ∀ b, m'.succs b = m.succs b)
    (hfuncs : m'.funcs = m.funcs)
    (hlayout : ∀ g ∈ m.funcs, (m'.func g).layout = (m.func g).layout) : Tame m' f e := by
  have back : ∀ {i}, i ∈ m'.instrs f → (m'.instr i).op = .phi ∨ i ∈ m.instrs f ∧
      P.keeps m i = true := by
    intro i hi
    obtain ⟨b,hb,hib⟩ := Module.mem_instrs_iff.mp hi
    rw [hP.layout] at hb
    exact (hP.mem_instrs hb hib).imp_right fun h => ⟨Module.mem_instrs_iff.mpr ⟨b,hb,h.1⟩,h.2⟩
  have fenced : ∀ {b}, m.Fenced f b → m'.Fenced f b := by
    rintro b ⟨q,hq,hb,i,hi,g,hg,hc,hd⟩
    obtain ⟨hk,hc'⟩ := hP.callee?_eq (Module.mem_instrs_iff.mpr ⟨q,hq,hi⟩) hc
    refine ⟨q,hP.layout ▸ hq,hsuccs q ▸ hb,i,hP.mem_instrs_of_keeps hq hi hk,g,hfuncs ▸ hg,hc',?_⟩
    rwa [Func.isDeclaration,hlayout g hg]
  constructor
  case reached =>
    rw [hP.layout,Module.reaches_congr hsuccs]
    exact hm.reached
  case known =>
    intro i hi k
    rcases back hi with hop | ⟨hi,hk⟩
    · simp [hop]
    · rw [(hP.instr i hi hk).1]
      exact hm.known i hi k
  case literal =>
    intro i hi hop c hc
    obtain ⟨hi,hk⟩ := (back hi).resolve_left hop
    obtain ⟨ho,-,-,hv⟩ := hP.instr i hi hk
    rw [hv] at hc
    obtain ⟨v,hv,hvc⟩ := mem_map.mp hc
    refine isFair_subst hP hm hi (ho ▸ hop) hv (fun l hl hs => ?_) c hvc
    subst hl
    have hl := mem_instrs_of_operand hF hm.reached hi (ho ▸ hop) hv
    obtain ⟨b,hb,hlb⟩ := Module.mem_instrs_iff.mp hl
    exact (fair_of_dominates hF hP hm (hm.reached b hb) b (.refl m e b)).2 l
      (Module.mem_body_of_not_phi hlb (by simp [op_of_loadOf? hs])) hs
  case load =>
    intro b hb i hi hop
    rw [hP.layout] at hb
    obtain ⟨hib,hk⟩ := (hP.mem_instrs hb hi).resolve_left (by simp [hop])
    have hi := Module.mem_instrs_iff.mpr ⟨b,hb,hib⟩
    rw [(hP.instr i hi hk).1] at hop
    exact (hm.load b hb i hib hop).imp (isVariable hF hP hm.reached hi (by simp [hop]) hk) fenced
  case store =>
    intro i hi hop
    obtain ⟨hi,hk⟩ := (back hi).resolve_left (by simp [hop])
    rw [(hP.instr i hi hk).1] at hop
    exact (hm.store i hi hop).imp (isVariable hF hP hm.reached hi (by simp [hop]) hk) fun h =>
      h.imp fun b h => ⟨hP.layout ▸ h.1,fenced h.2⟩

end

theorem contained (hP : Promotes m m' f e P) {Q : FuncId → Prop} (h : Contained m Q f e)
    (hreach : ∀ b ∈ (m.func f).layout, m.Reaches e b) (hr : Runnable m' f e) :
    Contained m' Q f e := by
  have hF := h.toFormed
  have back : ∀ {i}, i ∈ m'.instrs f → (m'.instr i).op ≠ .phi → i ∈ m.instrs f ∧
      P.keeps m i = true := by
    intro i hi hop
    obtain ⟨b,hb,hib⟩ := Module.mem_instrs_iff.mp hi
    rw [hP.layout] at hb
    obtain ⟨hib,hk⟩ := (hP.mem_instrs hb hib).resolve_left hop
    exact ⟨Module.mem_instrs_iff.mpr ⟨b,hb,hib⟩,hk⟩
  refine ⟨hr,fun i hi k ho => ?_,fun i hi ho => ?_,fun i hi p hp => ?_,fun i hi g hg => ?_,
    fun i hi ho => ?_⟩
  · obtain ⟨hi,hk⟩ := back hi (by simp [ho])
    exact h.known i hi k ((hP.instr i hi hk).1.symm.trans ho)
  · obtain ⟨hi,hk⟩ := back hi (by simp [ho])
    obtain ⟨c,k,hd,hc,hne⟩ := h.divisor i hi ((hP.instr i hi hk).1.symm.trans ho)
    refine ⟨c,k,by rw [hP.operand_eq hi hk,hd]; rfl,?_,hne⟩
    rw [hP.literal i hi c (Module.mem_operands_of_operand hd Operand.noConfusion),hc]
  · have hop : (m'.instr i).op = .load ∨ (m'.instr i).op = .store := by
      rw [Module.address?] at hp
      grind
    obtain ⟨hi,hk⟩ := back hi (by rcases hop with ho | ho <;> simp [ho])
    have ho := (hP.instr i hi hk).1
    obtain ⟨k,hpk,hak⟩ : ∃ k, p = m'.operand i k ∧ m.address? i = some (m.operand i k) := by
      rcases hop with hop | hop
      · rw [Module.address?,hop] at hp
        exact ⟨0,(Option.some.inj hp).symm,by rw [Module.address?,← ho,hop]⟩
      · rw [Module.address?,hop] at hp
        exact ⟨1,(Option.some.inj hp).symm,by rw [Module.address?,← ho,hop]⟩
    obtain ⟨s,hs,hst⟩ := h.access i hi _ hak
    have hne : m.operand i k ≠ .hole := hst.ne_hole Operand.noConfusion
    obtain ⟨hst',-,hop'⟩ :=
      startsAt hF hP hreach hi (by rw [← ho]; rcases hop with ho | ho <;> simp [ho]) hk
      (Module.mem_operands_of_operand rfl hne) hst (.inr ⟨s,rfl,hs⟩)
    exact ⟨s,(hop' s rfl).trans hs,hpk ▸ hP.operand_eq hi hk k ▸ hst'⟩
  · have hop := Module.op_of_callee? hg
    obtain ⟨hi,hk⟩ := back hi (by simp [hop])
    obtain ⟨g',vs,hops,-⟩ := h.call i hi ((hP.instr i hi hk).1.symm.trans hop)
    have hcallee : m.callee? i = some g' := by rw [Module.callee?,← (hP.instr i hi hk).1,hop,hops]
    obtain ⟨-,hg'⟩ := hP.callee?_eq hi hcallee
    cases hg.symm.trans hg'
    exact h.callee i hi g hcallee
  · obtain ⟨hi,hk⟩ := back hi (by simp [ho])
    obtain ⟨hop,-,hobject,-⟩ := hP.instr i hi hk
    rw [hobject]
    exact h.affords i hi (hop.symm.trans ho)

end Promotes
end CMinusF
