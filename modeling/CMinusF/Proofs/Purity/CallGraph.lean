import CMinusF.Proofs.Flow.Roots
import CMinusF.Proofs.Graph.Formed

/-! A function is judged pure if nothing it can call, itself included, has a side effect. The sweeps
over the functions drop one after the other and end with the greatest set that is closed under
calls, which with recursion is not the least one and does not depend on their order. -/
namespace CMinusF
open List
variable {fs : List FuncId} {P : FuncId → Prop} {a : InstrId}

namespace Purity
variable {m : Module} {f g : FuncId} {s : Sweep}

/-! One sweep. The lemmas are by induction on the functions still to be visited. -/

theorem changed_foldl_visit (h : s.changed = true) : (fs.foldl (visit m) s).changed = true := by
  induction fs generalizing s with
  | nil => exact h
  | cons f fs ih =>
    rw [foldl_cons,visit_eq]
    split
    · exact ih rfl
    · exact ih h

theorem isPure_of_foldl_visit (h : (fs.foldl (visit m) s).known.isPure g = true) :
    s.known.isPure g = true := by
  induction fs generalizing s with
  | nil => exact h
  | cons f fs ih =>
    rw [foldl_cons,visit_eq] at h
    split at h
    · have hset := ih h
      rw [isPure_set_false,Bool.and_eq_true] at hset
      exact hset.1
    · exact ih h

/-- A sweep that changes nothing has seen pure functions call pure functions only. -/
theorem foldl_visit_unchanged (h : (fs.foldl (visit m) s).changed = false) :
    fs.foldl (visit m) s = s ∧
      ∀ f ∈ fs, s.known.isPure f = true → ∀ g ∈ callees m f, s.known.isPure g = true := by
  induction fs generalizing s with
  | nil => exact ⟨rfl,fun _ hf => absurd hf not_mem_nil⟩
  | cons f fs ih =>
    rw [foldl_cons,visit_eq] at h ⊢
    split at h <;> rename_i hf
    · exact absurd (changed_foldl_visit rfl) (Bool.eq_false_iff.mp h)
    · obtain ⟨hsame,hrest⟩ := ih h
      rw [if_neg hf]
      refine ⟨hsame,forall_mem_cons.mpr ⟨fun hp => ?_,hrest⟩⟩
      have hall : (callees m f).all s.known.isPure = true := by
        simpa [hp] using hf
      exact all_eq_true.mp hall

/-- Functions that call only each other are not dropped, in whatever order they are visited. -/
theorem isPure_foldl_visit (hP : ∀ f, P f → ∀ g ∈ callees m f, P g)
    (hs : ∀ f, P f → s.known.isPure f = true) (hf : P f) :
    (fs.foldl (visit m) s).known.isPure f = true := by
  induction fs generalizing s with
  | nil => exact hs f hf
  | cons k fs ih =>
    rw [foldl_cons,visit_eq]
    split
    · rename_i hk
      refine ih fun g hg => ?_
      have hne : g ≠ k := by
        rintro rfl
        have hall : (callees m g).all s.known.isPure = true :=
          all_eq_true.mpr fun c hc => hs c (hP g hg c hc)
        rw [hall] at hk
        exact Bool.noConfusion hk.2
      rw [isPure_set_false,hs g hg,decide_eq_true hne]
      rfl
    · exact ih hs

/-! All sweeps. -/

theorem settle_spec (m : Module) (p : Purity) :
    (∀ f, (settle m p).isPure f = true → p.isPure f = true) ∧
      ∀ f ∈ m.funcs, (settle m p).isPure f = true →
        ∀ g ∈ callees m f, (settle m p).isPure g = true := by
  fun_induction settle m p with
  | case1 p s _ ih => exact ⟨fun f hf => isPure_of_foldl_visit (ih.1 f hf),ih.2⟩
  | case2 p s hs =>
    obtain ⟨hsame,hclosed⟩ := foldl_visit_unchanged (Bool.eq_false_iff.mpr hs)
    rw [show s.known = p from congrArg Sweep.known hsame]
    exact ⟨fun _ => id,hclosed⟩

theorem isPure_settle {p : Purity} (hP : ∀ f, P f → ∀ g ∈ callees m f, P g)
    (hp : ∀ f, P f → p.isPure f = true) (hf : P f) : (settle m p).isPure f = true := by
  fun_induction settle m p with
  | case1 p s _ ih => exact ih fun g hg => isPure_foldl_visit hP hp hg
  | case2 p s _ => exact isPure_foldl_visit hP hp hf

/-- A pure function is defined, has only harmless instructions, and calls only pure functions. -/
theorem isPure_spec (h : m.purity.isPure f = true) :
    f ∈ m.funcs ∧ (m.func f).isDeclaration = false ∧ (∀ i ∈ m.instrs f, m.harmless i = true) ∧
      ∀ i ∈ m.instrs f, ∀ g, m.callee? i = some g → m.purity.isPure g = true := by
  obtain ⟨hsub,hclosed⟩ := settle_spec m ⟨m.funcs.filter fun f =>
    !(m.func f).isDeclaration && (m.instrs f).all m.harmless⟩
  obtain ⟨hmem,hstart⟩ := mem_filter.mp (of_decide_eq_true (hsub f h))
  obtain ⟨hd,hall⟩ := Bool.and_eq_true_iff.mp hstart
  refine ⟨hmem,by simpa using hd,all_eq_true.mp hall,fun i hi g hg => ?_⟩
  exact hclosed f hmem h g (mem_filterMap.mpr ⟨i,hi,hg⟩)

/-- The pure functions are the most of which this can be said. -/
theorem isPure_of_closed (hfuncs : ∀ f, P f → f ∈ m.funcs)
    (hcode : ∀ f, P f → (m.func f).isDeclaration = false)
    (hharm : ∀ f, P f → ∀ i ∈ m.instrs f, m.harmless i = true)
    (hcalls : ∀ f, P f → ∀ g ∈ callees m f, P g) (hf : P f) : m.purity.isPure f = true := by
  refine isPure_settle hcalls (fun g hg => decide_eq_true (mem_filter.mpr ⟨hfuncs g hg,?_⟩)) hf
  rw [hcode g hg,all_eq_true.mpr (hharm g hg)]
  rfl

theorem rootFrom_reorder (m : Module) (fs : List FuncId) (n : Nat) (v : Operand) :
    { m with funcs := fs }.rootFrom n v = m.rootFrom n v := by
  induction n generalizing v with
  | zero => rfl
  | succ n ih =>
    cases v with
    | instr i =>
      rw [Module.rootFrom,Module.rootFrom,ih]
      rfl
    | _ => rfl

theorem harmless_reorder (m : Module) (fs : List FuncId) (i : InstrId) :
    { m with funcs := fs }.harmless i = m.harmless i := by
  simp only [Module.harmless,Module.memoryRoot,rootFrom_reorder]
  rfl

theorem isPure_of_reorder (hfs : fs.Perm m.funcs)
    (h : { m with funcs := fs }.purity.isPure f = true) : m.purity.isPure f = true := by
  have hspec := fun g => isPure_spec (m := { m with funcs := fs }) (f := g)
  refine isPure_of_closed (P := fun g => { m with funcs := fs }.purity.isPure g = true)
    (fun g hg => hfs.mem_iff.mp (hspec g hg).1) (fun g hg => (hspec g hg).2.1)
    (fun g hg i hi => harmless_reorder m fs i ▸ (hspec g hg).2.2.1 i hi) (fun g hg c hc => ?_) h
  obtain ⟨i,hi,hic⟩ := mem_filterMap.mp hc
  exact (hspec g hg).2.2.2 i hi c hic

theorem isPure_reorder (hfs : fs.Perm m.funcs) (f : FuncId) :
    { m with funcs := fs }.purity.isPure f = m.purity.isPure f :=
  Bool.eq_iff_iff.mpr ⟨isPure_of_reorder hfs,
    isPure_of_reorder (m := { m with funcs := fs }) hfs.symm⟩

end Purity

namespace Module
variable {m : Module} {f g : FuncId} {i : InstrId}

def Calls (m : Module) (f g : FuncId) : Prop := ∃ i ∈ m.instrs f, m.callee? i = some g

/-- The function reads or writes memory at an address with this root. -/
def Touches (m : Module) (f : FuncId) (r : Operand) : Prop :=
  ∃ i ∈ m.instrs f, ∃ p, m.address? i = some p ∧ m.Root p r

/-- What the function reads or writes of the memory from an `alloca` is from one of its own. -/
def UsesOwn (m : Module) (f : FuncId) : Prop := ∀ a, m.Touches f (.instr a) → a ∈ m.instrs f

/-- A function with code that divides only by constants other than zero, and whose memory is made by
`alloca`. -/
structure Clean (m : Module) (f : FuncId) : Prop where
  defined : (m.func f).isDeclaration = false
  divisor : ∀ i ∈ m.instrs f, (m.instr i).op = .int .div → ∃ c k, m.operand i 1 = .literal c ∧
    (m.literal c).value = .int k ∧ k ≠ 0
  memory : ∀ r, m.Touches f r → ∃ a, r = .instr a ∧ (m.instr a).op = .alloca

theorem speculatable_iff : m.speculatable i = true ↔
    ((m.instr i).op = .int .div → ∃ c k, m.operand i 1 = .literal c ∧ (m.literal c).value = .int k ∧
      k ≠ 0) := by
  unfold speculatable
  split
  · rename_i hop
    rw [hop,forall_prop_of_true rfl]
    split
    · rename_i c hc
      split
      · rename_i k hk
        simp [hc,hk]
      · rename_i hk
        refine iff_of_false Bool.noConfusion ?_
        rintro ⟨c',k,hc',hk',-⟩
        cases hc.symm.trans hc'
        exact hk k hk'
    · rename_i hc
      exact iff_of_false Bool.noConfusion fun ⟨c,_,hc',_⟩ => hc c hc'
  · rename_i hop
    exact iff_of_true rfl fun h => absurd h hop

theorem isLocalObject_iff {r : Operand} :
    m.isLocalObject r = true ↔ ∃ a, r = .instr a ∧ (m.instr a).op = .alloca := by
  cases r <;> simp [isLocalObject]

theorem Grounded.clean_iff (h : m.Grounded) :
    m.Clean f ↔ (m.func f).isDeclaration = false ∧ ∀ i ∈ m.instrs f, m.harmless i = true := by
  constructor
  · intro hc
    refine ⟨hc.defined,fun i hi => ?_⟩
    refine Bool.and_eq_true_iff.mpr ⟨speculatable_iff.mpr (hc.divisor i hi),?_⟩
    cases hp : m.address? i with
    | none => rfl
    | some p => exact isLocalObject_iff.mpr (hc.memory _ ⟨i,hi,p,hp,h.root p⟩)
  · rintro ⟨hd,hall⟩
    refine ⟨hd,fun i hi => speculatable_iff.mp (Bool.and_eq_true_iff.mp (hall i hi)).1,?_⟩
    rintro r ⟨i,hi,p,hp,hr⟩
    have := (Bool.and_eq_true_iff.mp (hall i hi)).2
    rw [hp] at this
    exact isLocalObject_iff.mp (hr.unique (h.root p) ▸ this)

/-- The instructions of a function read no others than its own. -/
def ReadsOwn (m : Module) (f : FuncId) : Prop :=
  ∀ i ∈ m.instrs f, ∀ j, .instr j ∈ m.operands i → j ∈ m.instrs f

theorem ReadsOwn.mem_of_root (h : m.ReadsOwn f) {v : Operand}
    (hv : ∀ j, v = .instr j → j ∈ m.instrs f) (hr : m.Root v (.instr a)) : a ∈ m.instrs f := by
  generalize hx : Operand.instr a = r at hr
  induction hr with
  | object => exact hv a hx.symm
  | step hop _ ih =>
    exact ih (fun j hj => h _ (hv _ rfl) j (mem_operands_of_operand hj Operand.noConfusion)) hx

theorem ReadsOwn.mem_of_touches (h : m.ReadsOwn f) (ha : m.Touches f (.instr a)) :
    a ∈ m.instrs f := by
  obtain ⟨i,hi,p,hp,hr⟩ := ha
  refine h.mem_of_root (fun j hj => h i hi j ?_) hr
  rw [address?] at hp
  split at hp <;> cases hp <;> exact mem_operands_of_operand hj Operand.noConfusion

theorem isPure_of_calls (hf : m.purity.isPure f = true)
    (hg : Relation.ReflTransGen m.Calls f g) : m.purity.isPure g = true := by
  induction hg with
  | refl => exact hf
  | tail _ hc ih =>
    obtain ⟨i,hi,hic⟩ := hc
    exact (Purity.isPure_spec ih).2.2.2 i hi _ hic

/-- A function is pure if all functions it can call are clean. -/
theorem Grounded.isPure_iff (h : m.Grounded)
    (hcalls : ∀ f ∈ m.funcs, ∀ g, m.Calls f g → g ∈ m.funcs) (hf : f ∈ m.funcs) :
    m.purity.isPure f = true ↔ ∀ g, Relation.ReflTransGen m.Calls f g → m.Clean g := by
  constructor
  · intro hp g hg
    obtain ⟨-,hd,hh,-⟩ := Purity.isPure_spec (isPure_of_calls hp hg)
    exact h.clean_iff.mpr ⟨hd,hh⟩
  · intro hall
    refine Purity.isPure_of_closed ?_ (fun g hg => (hall g hg).defined)
      (fun g hg => (h.clean_iff.mp (hall g hg)).2) ?_ .refl
    · intro g hg
      induction hg with
      | refl => exact hf
      | tail _ hc ih => exact hcalls _ ih _ hc
    · intro g hg c hc
      obtain ⟨i,hi,hic⟩ := mem_filterMap.mp hc
      exact hg.tail ⟨i,hi,hic⟩

end Module

/-- Whether a function is pure depends on the functions it can call, itself included, and not on the
order in which they stand: all must have code, divide only by constants other than zero and use only
memory from an `alloca`. If instructions read only instructions of their function, this memory has
to be its own. -/
theorem purity_exact {m : Module} (hcalls : ∀ f ∈ m.funcs, ∀ i ∈ m.instrs f,
      (m.instr i).op = .call → ∃ g ∈ m.funcs, m.callee? i = some g) (hground : m.Grounded) :
    (∀ f ∈ m.funcs, m.purity.isPure f = true ↔
      ∀ g, Relation.ReflTransGen m.Calls f g → m.Clean g) ∧
    ((∀ f ∈ m.funcs, m.ReadsOwn f) → ∀ f ∈ m.funcs, m.purity.isPure f = true ↔
      ∀ g, Relation.ReflTransGen m.Calls f g → m.Clean g ∧ m.UsesOwn g) ∧
    ∀ fs : List FuncId, fs.Perm m.funcs →
      ∀ f, { m with funcs := fs }.purity.isPure f = m.purity.isPure f := by
  have hcalled : ∀ f ∈ m.funcs, ∀ g, m.Calls f g → g ∈ m.funcs := by
    rintro f hf g ⟨i,hi,hg⟩
    have hop : (m.instr i).op = .call := by
      unfold Module.callee? at hg
      split at hg
      · assumption
      · cases hg
    obtain ⟨g',hg',hcallee⟩ := hcalls f hf i hi hop
    rw [hg] at hcallee
    exact Option.some.inj hcallee ▸ hg'
  have hiff := fun f (hf : f ∈ m.funcs) => hground.isPure_iff hcalled hf
  refine ⟨hiff,fun hown f hf => (hiff f hf).trans ?_,fun fs hfs f => Purity.isPure_reorder hfs f⟩
  -- what a function of the module can call is a function of the module
  have hreach : ∀ {g}, Relation.ReflTransGen m.Calls f g → g ∈ m.funcs := by
    intro g hg
    induction hg with
    | refl => exact hf
    | tail _ hc ih => exact hcalled _ ih _ hc
  exact forall₂_congr fun g hg =>
    ⟨fun h => ⟨h,fun a ha => (hown g (hreach hg)).mem_of_touches ha⟩,And.left⟩

/-- Two functions that call each other, and one that reads a local of the first. -/
def lending : Module :=
  { name := "lending", globals := [], funcs := [0,1,2], globalTable := .empty
    funcTable := ⟨#[
      ⟨"lender",.i32,[],[⟨0,0⟩],⟨#[⟨"entry",[0,1,2,3],[],[],[]⟩]⟩,3,.empty,[4]⟩,
      ⟨"partner",.i32,[],[⟨1,0⟩],⟨#[⟨"entry",[4,5],[],[],[]⟩]⟩,1,.empty,[2]⟩,
      ⟨"borrower",.i32,[],[⟨2,0⟩],⟨#[⟨"entry",[6,7],[],[],[]⟩]⟩,1,.empty,[]⟩]⟩
    instrTable := ⟨#[
      ⟨.alloca,.pointer .i32,some 0,some .i32,[],some ⟨0,0⟩,[1,6]⟩,
      ⟨.load,.i32,some 1,none,[.instr 0],some ⟨0,0⟩,[]⟩,
      ⟨.call,.i32,some 2,none,[.func 1],some ⟨0,0⟩,[3]⟩,
      ⟨.ret,.void,none,none,[.instr 2],some ⟨0,0⟩,[]⟩,
      ⟨.call,.i32,some 0,none,[.func 0],some ⟨1,0⟩,[5]⟩,
      ⟨.ret,.void,none,none,[.instr 4],some ⟨1,0⟩,[]⟩,
      ⟨.load,.i32,some 0,none,[.instr 0],some ⟨2,0⟩,[7]⟩,
      ⟨.ret,.void,none,none,[.instr 6],some ⟨2,0⟩,[]⟩]⟩
    literalTable := .empty }

theorem lending_grounded : lending.Grounded := Module.grounded_of_lt (by decide)

def partners : Module := { lending with funcs := [0,1] }

theorem partners_readsOwn : ∀ f ∈ partners.funcs, partners.ReadsOwn f := by
  have h : ∀ f ∈ partners.funcs, ∀ i ∈ partners.instrs f, ∀ v ∈ partners.operands i,
      v ∈ (partners.instrs f).map .instr ∨ v ∈ [.func 0,.func 1] := by decide
  intro f hf i hi j hj
  rcases h f hf i hi _ hj with hv | hv
  · obtain ⟨k,hk,hkj⟩ := mem_map.mp hv
    exact Operand.instr.inj hkj ▸ hk
  · simp at hv

theorem purity_exact_partners :
    (∀ f ∈ partners.funcs, ∀ i ∈ partners.instrs f, (partners.instr i).op = .call →
      ∃ g ∈ partners.funcs, partners.callee? i = some g) ∧ partners.Grounded ∧
    (∀ f ∈ partners.funcs, partners.ReadsOwn f) ∧ partners.Calls 0 1 ∧ partners.Calls 1 0 ∧
    partners.purity.isPure 0 = true ∧ (partners.Clean 1 ∧ partners.UsesOwn 1) ∧
    { partners with funcs := [1,0] }.purity.isPure 0 = true := by
  have hcalls : ∀ f ∈ partners.funcs, ∀ i ∈ partners.instrs f, (partners.instr i).op = .call →
    ∃ g ∈ partners.funcs, partners.callee? i = some g := by decide
  have hground : partners.Grounded := lending_grounded
  obtain ⟨-,hown,horder⟩ := purity_exact hcalls hground
  have hcall : partners.Calls 0 1 := ⟨2,by decide,rfl⟩
  have hpure : partners.purity.isPure 0 = true := by decide +kernel
  exact ⟨hcalls,hground,partners_readsOwn,hcall,⟨4,by decide,rfl⟩,hpure,
    (hown partners_readsOwn 0 (by decide)).mp hpure 1 (.single hcall),
    (horder [1,0] (by decide) 0).trans hpure⟩

/-- A function that reads a local of another one is judged pure as well. -/
theorem borrower_pure :
    (∀ f ∈ lending.funcs, ∀ i ∈ lending.instrs f, (lending.instr i).op = .call →
      ∃ g ∈ lending.funcs, lending.callee? i = some g) ∧ lending.Grounded ∧ 2 ∈ lending.funcs ∧
    ¬(lending.purity.isPure 2 = true ↔
      ∀ g, Relation.ReflTransGen lending.Calls 2 g → lending.Clean g ∧ lending.UsesOwn g) := by
  refine ⟨by decide,lending_grounded,by decide,fun h => ?_⟩
  have hread : lending.Touches 2 (.instr 0) := ⟨6,by decide,_,rfl,.object fun i hi => ?_⟩
  · exact absurd ((h.mp (by decide +kernel) 2 .refl).2 0 hread) (by decide)
  · cases hi
    decide

end CMinusF
