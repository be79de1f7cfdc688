import CMinusF.Flow.Purity
import CMinusF.Proofs.Machine.Compose

/-! Calls as a whole: a call ends if a machine with a large enough budget gets to its end. -/
namespace CMinusF
open Run
variable {m : Module} {w : World} {f : FuncId} {args : List Datum} {n : Nat}

/-- How a call of a function ends: after how many instructions, in which world, and with what. -/
inductive CallEnds (m : Module) (w : World) (f : FuncId) (args : List Datum) :
    Nat → World → Except Fault Datum → Prop where
  | builtin : (m.func f).isDeclaration = true →
      CallEnds m w f args 0 (builtin (m.func f).name args (countCall w (m.func f).name)).1
        (builtin (m.func f).name args (countCall w (m.func f).name)).2
  | code {k : Nat} {w₁ : World} {x : Except Fault Datum} : (m.func f).isDeclaration = false →
      Ends m (countCall w (m.func f).name) (activation m w.globals f args) k w₁ x →
        CallEnds m w f args k w₁ x

/-- A fault is reported with the places where it arose. -/
inductive Reports : Except Fault Datum → Except RunError Datum → Prop where
  | ok (v : Datum) : Reports (.ok v) (.ok v)
  | error (e : Fault) (sites : List Site) : Reports (.error e) (.error (.fault sites e))

def Spent (r : Except RunError Datum) : Prop := ∃ sites, r = .error (.fault sites .stepLimit)

namespace CallEnds
variable {w₁ w2 : World} {k l : Nat} {x y : Except Fault Datum}

variable (h : CallEnds m w f args k w₁ x)
include h

theorem unique (h' : CallEnds m w f args l w2 y) : k = l ∧ w₁ = w2 ∧ x = y := by
  cases h with
  | builtin hd =>
    cases h' with
    | builtin => exact ⟨rfl,rfl,rfl⟩
    | code hd' => exact absurd (hd.symm.trans hd') Bool.noConfusion
  | code hd he =>
    cases h' with
    | builtin hd' => exact absurd (hd'.symm.trans hd) Bool.noConfusion
    | code _ he' => exact he.unique he'

theorem ne_stepLimit : x ≠ .error .stepLimit := by
  cases h with
  | builtin => exact (builtin_extends ..).2
  | code _ he => exact he.ne_stepLimit

theorem callFunc (hk : k ≤ n) :
    ∃ r, (⟨n,w⟩ : Machine).callFunc m f args = (⟨n - k,w₁⟩,r) ∧ Reports x r := by
  cases h with
  | builtin hd =>
    simp only [Machine.callFunc,hd]
    rcases Run.builtin (m.func f).name args (countCall w (m.func f).name) with ⟨w₁,e | v⟩
    · exact ⟨_,rfl,.error e []⟩
    · exact ⟨_,rfl,.ok v⟩
  | code hd he =>
    have hr := he.resumes (n - k) []
    rw [Nat.sub_add_cancel hk] at hr
    simp only [Machine.callFunc,hd]
    rw [show (countCall w (m.func f).name).globals = w.globals from rfl]
    cases x with
    | ok v =>
      rw [show run m n _ = (n - k,w₁,.ok v) from hr]
      exact ⟨.ok v,rfl,.ok v⟩
    | error e =>
      obtain ⟨sites,hr⟩ := hr
      rw [hr]
      exact ⟨.error (.fault sites e),rfl,.error e sites⟩

theorem not_spent {r : Except RunError Datum} (hr : Reports x r) : ¬Spent r := by
  rintro ⟨sites,rfl⟩
  cases hr
  exact h.ne_stepLimit rfl

end CallEnds

theorem callEnds_of_not_spent
    (h : ¬Spent ((⟨n,w⟩ : Machine).callFunc m f args).2) :
    ∃ k ≤ n, ∃ w₁ x, CallEnds m w f args k w₁ x := by
  cases hd : (m.func f).isDeclaration with
  | true => exact ⟨0,Nat.zero_le _,_,_,.builtin hd⟩
  | false =>
    rcases ends_or_spent m n (countCall w (m.func f).name) (activation m w.globals f args)
      with ⟨k,w₁,x,hk,he⟩ | hs
    · exact ⟨k,hk,w₁,x,.code hd he⟩
    · obtain ⟨w₁,sites,hs⟩ := hs []
      refine absurd ⟨sites,?_⟩ h
      simp only [Machine.callFunc,hd,Bool.false_eq_true,↓reduceIte]
      exact congrArg (·.2.2) hs

/-! Calls in two modules. -/

/-- Two calls are begun in worlds and with arguments that correspond. -/
structure StartRel (ι : Pairing) (w w' : World) (args args' : List Datum) : Prop where
  world : w.Rel ι w'
  calls : w'.calls = w.calls
  args : ∀ n, (args.getD n .zero).Rel ι (args'.getD n .zero)

/-- In `m'` a function does what it does in `m`, and takes no longer. -/
structure Preserves (m m' : Module) (f : FuncId) : Prop where
  after : ∀ {ι w w' args args' k w₁ x}, StartRel ι w w' args args' → CallEnds m w f args k w₁ x →
    ∃ k' ≤ k, ∃ ι₁ w₁' x', CallEnds m' w' f args' k' w₁' x' ∧ w₁.Rel ι₁ w₁' ∧ w₁'.calls = w₁.calls ∧
      Evolves ι ι₁ w.heap w'.heap w₁.heap w₁'.heap ∧ EndRel ι₁ x x'
  before : ∀ {ι w w' args args' k' w₁' x'}, StartRel ι w w' args args' →
    CallEnds m' w' f args' k' w₁' x' →
    ∃ k w₁ x, CallEnds m w f args k w₁ x

theorem Preserves.trans {m' m'' : Module} (h : Preserves m m' f) (h' : Preserves m' m'' f) :
    Preserves m m'' f where
  after {ι w w' args args' k w₁ x} hs he := by
    have hs' : StartRel ι.range w' w' args' args' := ⟨hs.world.range,rfl,fun n => (hs.args n).range⟩
    obtain ⟨k1,hk1,ι1,w2,x1,he1,hw1,hc1,hev1,hx1⟩ := h.after hs he
    obtain ⟨k2,hk2,ι2,w3,x2,he2,hw2,hc2,hev2,hx2⟩ := h'.after hs' he1
    exact ⟨k2,hk2.trans hk1,ι1.comp ι2,w3,x2,he2,hw1.comp hw2,hc2.trans hc1,
      hev1.comp hs.world.heap hev2,hx1.comp hx2⟩
  before {ι w w' args args' k' w₁' x'} hs he := by
    have hs' : StartRel ι.range w' w' args' args' := ⟨hs.world.range,rfl,fun n => (hs.args n).range⟩
    obtain ⟨_,_,_,he1⟩ := h'.before hs' he
    exact h.before hs he1

/-! Memory. -/

/-- No object that the function makes is too long. -/
def Module.Affords (m : Module) (f : FuncId) : Prop :=
  ∀ i ∈ m.instrs f, (m.instr i).op = .alloca →
    ((m.instr i).object.getD .void).length ≤ Object.limit

instance (m : Module) (f : FuncId) : Decidable (m.Affords f) :=
  inferInstanceAs (Decidable (∀ i ∈ m.instrs f, _ → _))

namespace Machine

theorem addGlobal_eq_some {s s' : Heap × Table (Option Nat)} {g : GlobalId}
    (h : addGlobal m s g = some s') :
    (m.global g).contents.length ≤ Object.limit ∧
      s' = ((s.1.extend (.zeros (m.global g).contents.length)).1,s.2.set g (some s.1.size)) := by
  unfold addGlobal at h
  by_cases hl : (m.global g).contents.length ≤ Object.limit
  · rw [s.1.allocate_of_le hl] at h
    cases h
    exact ⟨hl,rfl⟩
  · rw [s.1.allocate_of_lt (Int.not_le.mp hl)] at h
    cases h

/-- What making a global keeps is kept by making all of them. -/
theorem foldlM_addGlobal {P : List GlobalId → Heap × Table (Option Nat) → Prop}
    {gs : List GlobalId} {s s' : Heap × Table (Option Nat)} (hstep : ∀ g gs s, P (g :: gs) s →
      P gs ((s.1.extend (.zeros (m.global g).contents.length)).1,s.2.set g (some s.1.size)))
    (hs : P gs s) (h : gs.foldlM (addGlobal m) s = some s') : P [] s' := by
  induction gs generalizing s with
  | nil =>
    cases h
    exact hs
  | cons g gs ih =>
    rw [List.foldlM_cons] at h
    obtain ⟨s₁,h₁,h⟩ := Option.bind_eq_some_iff.mp h
    obtain ⟨-,rfl⟩ := addGlobal_eq_some h₁
    exact ih (hstep g gs s hs) h

/-- There is a machine for a module unless one of its globals is too long. -/
theorem isSome_new_iff (m : Module) (heap : Heap) (input : String) (n : Nat) :
    (Machine.new m heap input n).isSome = true ↔
      ∀ g ∈ m.globals, (m.global g).contents.length ≤ Object.limit := by
  have hall : ∀ (gs : List GlobalId) s, (gs.foldlM (addGlobal m) s).isSome = true ↔
      ∀ g ∈ gs, (m.global g).contents.length ≤ Object.limit := by
    intro gs
    induction gs with
    | nil => exact fun s => ⟨fun _ _ hg => absurd hg List.not_mem_nil,fun _ => rfl⟩
    | cons g gs ih =>
      intro s
      rw [List.foldlM_cons,List.forall_mem_cons]
      cases hg : addGlobal m s g with
      | none =>
        refine ⟨fun h => Bool.noConfusion h,fun h => ?_⟩
        rw [addGlobal,s.1.allocate_of_le h.1] at hg
        cases hg
      | some s₁ => exact (ih s₁).trans (and_iff_right (addGlobal_eq_some hg).1).symm
  rw [Machine.new,Option.isSome_map]
  exact hall _ _

theorem new_closed {h : Heap} {input : String} {n : Nat} {mc : Machine}
    (hh : ∀ o, o < h.size → ∀ j, ((h.get o).cells.get j).Within h.size)
    (hmc : Machine.new m h input n = some mc) : mc.world.Closed := by
  obtain ⟨s,hs,rfl⟩ := Option.map_eq_some_iff.mp hmc
  have hclosed := foldlM_addGlobal (P := fun _ (s : Heap × Table (Option Nat)) =>
    (∀ o, o < s.1.size → ∀ j, ((s.1.get o).cells.get j).Within s.1.size) ∧
      ∀ g o, s.2.get g = some o → o < s.1.size) ?_ ⟨hh,by simp⟩ hs
  · exact ⟨hclosed.1,hclosed.2⟩
  · rintro g gs ⟨h,t⟩ ⟨hh,ht⟩
    dsimp only at hh ht
    refine ⟨?_,?_⟩
    · intro o ho j p hp
      simp only [Heap.extend,Table.size_push,Table.get_push] at ho hp ⊢
      split at hp
      · simp [Object.zeros,default,Datum.zero,Address.null] at hp
      · have := hh o (by omega) j p hp
        omega
    · intro g' o hg
      simp only [Heap.extend,Table.size_push,Table.get_set] at hg ⊢
      grind

end Machine
end CMinusF
