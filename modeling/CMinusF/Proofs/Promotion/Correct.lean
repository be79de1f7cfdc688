import CMinusF.Proofs.Graph.Verified
import CMinusF.Proofs.Promotion.Modules

/-! Promotion leaves every call of a module as it was: its value or fault, what it reads and prints,
which functions it calls how often, and that it ends. -/
namespace CMinusF
variable {m m' : Module} {f : FuncId} {n : Nat}

/-- A function whose locals may be promoted: it passes the check, is in single assignment form, and
nothing jumps to its entry, where its allocas are. -/
structure Admissible (m : Module) (f : FuncId) (e : BlockId) : Prop where
  verified : m.verify f = .ok ()
  assembled : Assembled m f
  ssa : SingleAssignment m f e
  entry : (m.func f).layout.head? = some e
  entry_preds : m.preds e = []
  allocas : ∀ i ∈ m.instrs f, (m.instr i).op = .alloca → i ∈ (m.block e).instrs

def Module.Admissible (m : Module) : Prop :=
  ∀ f ∈ m.funcs, (m.func f).isDeclaration = false → ∃ e, CMinusF.Admissible m f e

theorem Admissible.rooted {e : BlockId} (h : Admissible m f e) : Rooted m f e :=
  ⟨h.assembled.runnable h.verified h.ssa h.entry,h.assembled.mirror,h.entry_preds,h.allocas,
    h.ssa.linked⟩

theorem Module.Admissible.allReady (h : m.Admissible) : m.AllReady := by
  intro f hf hd
  obtain ⟨e,he⟩ := h f hf hd
  exact ⟨e,he.rooted⟩

def RunError.kind : RunError → RunError
  | .fault _ e => .fault [] e
  | e => e

/-- Two calls have given the same: values that correspond, or errors of one kind. -/
inductive AnswerRel (ι : Pairing) : Except RunError Datum → Except RunError Datum → Prop where
  | ok {x y : Datum} : x.Rel ι y → AnswerRel ι (.ok x) (.ok y)
  | error {e e' : RunError} : e.kind = e'.kind → AnswerRel ι (.error e) (.error e')

theorem EndRel.answer {ι : Pairing} {x x' : Except Fault Datum} {r r' : Except RunError Datum}
    (h : EndRel ι x x') (hr : Reports x r) (hr' : Reports x' r') : AnswerRel ι r r' := by
  cases h with
  | ok hx =>
    cases hr
    cases hr'
    exact .ok hx
  | error e =>
    cases hr
    cases hr'
    exact .error rfl

/-- The ends of two calls that began in one world: what happened since may have made objects in
another order. -/
structure SameEnd (w : World) (r r' : Machine × Except RunError Datum) (ι : Pairing) : Prop where
  old : ∀ o, o < w.heap.size → ι o o
  world : r.1.world.Rel ι r'.1.world
  calls : r'.1.world.calls = r.1.world.calls
  budget : r.1.budget ≤ r'.1.budget
  answer : AnswerRel ι r.2 r'.2

namespace Preserves
variable {w : World} {args : List Datum}

theorem start (hw : w.Closed) (hargs : ∀ v ∈ args, v.Within w.heap.size) :
    StartRel (Pairing.below w.heap.size) w w args args := by
  refine ⟨hw.rel,rfl,fun n => ?_⟩
  rw [List.getD_eq_getElem?_getD]
  cases hn : args[n]? with
  | none => exact .zero
  | some v => exact (hargs v (List.mem_of_getElem? hn)).rel

theorem callFunc_after (h : Preserves m m' f) (hw : w.Closed)
    (hargs : ∀ v ∈ args, v.Within w.heap.size)
    (hn : ¬Spent ((⟨n,w⟩ : Machine).callFunc m f args).2) :
    ∃ ι, SameEnd w ((⟨n,w⟩ : Machine).callFunc m f args)
      ((⟨n,w⟩ : Machine).callFunc m' f args) ι := by
  obtain ⟨k,hk,w1,x,he⟩ := callEnds_of_not_spent hn
  obtain ⟨k',hk',ι,w1',x',he',hrel,hcalls,hev,hx⟩ := h.after (start hw hargs) he
  obtain ⟨r,hr,hrep⟩ := he.callFunc hk
  obtain ⟨r',hr',hrep'⟩ := he'.callFunc (hk'.trans hk)
  rw [hr,hr']
  exact ⟨ι,fun o ho => hev.mono o o ⟨rfl,ho⟩,hrel,hcalls,Nat.sub_le_sub_left hk' n,
    hx.answer hrep hrep'⟩

theorem callFunc_before (h : Preserves m m' f) (hw : w.Closed)
    (hargs : ∀ v ∈ args, v.Within w.heap.size)
    (hn : ¬Spent ((⟨n,w⟩ : Machine).callFunc m' f args).2) :
    ∃ k, ¬Spent ((⟨k,w⟩ : Machine).callFunc m f args).2 := by
  obtain ⟨_,_,_,_,he'⟩ := callEnds_of_not_spent hn
  obtain ⟨k,w1,x,he⟩ := h.before (start hw hargs) he'
  obtain ⟨r,hr,hrep⟩ := he.callFunc (Nat.le_refl k)
  refine ⟨k,?_⟩
  rw [hr]
  exact he.not_spent hrep

end Preserves

/-- A call by name looks for the function and counts the arguments before it runs anything. -/
theorem Machine.call_cases (hfuncs : m'.funcs = m.funcs)
    (hname : ∀ f ∈ m.funcs, (m'.func f).name = (m.func f).name)
    (hparams : ∀ f ∈ m.funcs, (m'.func f).params = (m.func f).params) (name : String)
      (args : List Datum) :
    (∃ e : RunError, (∀ sites c, e ≠ .fault sites c) ∧
      ∀ mc : Machine, mc.call m name args = (mc,.error e) ∧ mc.call m' name args = (mc,.error e)) ∨
    ∃ f ∈ m.funcs, ∀ mc : Machine, mc.call m name args = mc.callFunc m f args ∧
      mc.call m' name args = mc.callFunc m' f args := by
  have hfind : m'.func? name = m.func? name := by
    rw [Module.func?,Module.func?,hfuncs,← List.head?_filter,← List.head?_filter]
    exact congrArg _ (List.filter_congr fun f hf => by rw [hname f hf])
  simp only [Machine.call,hfind]
  cases hf : m.func? name with
  | none => exact .inl ⟨_,by simp,fun _ => ⟨rfl,rfl⟩⟩
  | some f =>
    have hmem := List.mem_of_find?_eq_some hf
    simp only [hparams f hmem]
    by_cases hlen : args.length ≠ (m.func f).params.length
    · simp only [if_pos hlen]
      exact .inl ⟨_,by simp,fun _ => ⟨rfl,rfl⟩⟩
    · simp only [if_neg hlen]
      exact .inr ⟨f,hmem,fun _ => ⟨rfl,rfl⟩⟩

/-- Whatever functions are promoted, a call that ends within a budget still does, and in the same
way; and one that ends after promotion ended before. -/
theorem promoted_call {m : Module} (hm : m.Admissible) {fs : List FuncId}
    (hfs : ∀ f ∈ fs, f ∈ m.funcs) {w : World} (hw : w.Closed) (name : String) {args : List Datum}
    (hargs : ∀ v ∈ args, v.Within w.heap.size) :
    (∀ n, ¬Spent ((⟨n,w⟩ : Machine).call m name args).2 →
      ∃ ι, SameEnd w ((⟨n,w⟩ : Machine).call m name args)
        ((⟨n,w⟩ : Machine).call (m.promoted fs) name args) ι) ∧
    ((∃ n, ¬Spent ((⟨n,w⟩ : Machine).call (m.promoted fs) name args).2) →
      ∃ n, ¬Spent ((⟨n,w⟩ : Machine).call m name args).2) := by
  obtain ⟨_,hfuncs,hall⟩ := hm.allReady.promoted hfs
  rcases Machine.call_cases hfuncs (fun f hf => (hall f hf).2.1)
    (fun f hf => (hall f hf).2.2) name args with
    ⟨e,hne,he⟩ | ⟨f,hf,he⟩
  · have hsp : ∀ mc : Machine, ¬Spent (mc.call m name args).2 := by
      rintro mc ⟨sites,hs⟩
      rw [(he mc).1] at hs
      exact hne _ _ (Except.error.inj hs)
    refine ⟨fun n _ => ⟨Pairing.below w.heap.size,?_⟩,fun _ => ⟨0,hsp _⟩⟩
    rw [(he _).1,(he _).2]
    exact ⟨fun o ho => ⟨rfl,ho⟩,hw.rel,rfl,Nat.le_refl _,.error rfl⟩
  · have hp := (hall f hf).1
    refine ⟨fun n hn => ?_,fun ⟨n,hn⟩ => ?_⟩
    · rw [(he _).1] at hn ⊢
      rw [(he _).2]
      exact hp.callFunc_after hw hargs hn
    · rw [(he _).2] at hn
      obtain ⟨k,hk⟩ := hp.callFunc_before hw hargs hn
      exact ⟨k,by rw [(he _).1]; exact hk⟩

/-- A local that is written on one of two ways to where it is read. -/
def halfWritten : Module :=
  let b (n : Nat) : BlockId := ⟨0,n⟩
  let pointer : Ty := .pointer .i32
  { name := "half", globals := [], funcs := [0], globalTable := .empty
    funcTable := ⟨#[⟨"main",.i32,[],[b 0,b 1,b 2,b 3],⟨#[
      ⟨"entry",[0,1],[],[b 1,b 2],[]⟩,⟨"yes",[2,3],[b 0],[b 3],[1]⟩,
      ⟨"no",[4],[b 0],[b 3],[1]⟩,⟨"end",[5,6],[b 1,b 2],[],[3,4]⟩]⟩,2,.empty,[]⟩]⟩
    instrTable := ⟨#[
      ⟨.alloca,pointer,some 0,some .i32,[],some (b 0),[2,5]⟩,
      ⟨.br,.void,none,none,[.literal 0,.block (b 1),.block (b 2)],some (b 0),[]⟩,
      ⟨.store,.void,none,none,[.literal 1,.instr 0],some (b 1),[]⟩,
      ⟨.br,.void,none,none,[.block (b 3)],some (b 1),[]⟩,
      ⟨.br,.void,none,none,[.block (b 3)],some (b 2),[]⟩,
      ⟨.load,.i32,some 1,none,[.instr 0],some (b 3),[6]⟩,
      ⟨.ret,.void,none,none,[.instr 5],some (b 3),[]⟩]⟩
    literalTable := ⟨#[⟨.int 0,[1]⟩,⟨.int 7,[2]⟩]⟩ }

theorem halfWritten_mirror : halfWritten.Mirror := .of_entries (by decide) (by decide) (by decide)

theorem halfWritten_singleAssignment : SingleAssignment halfWritten 0 ⟨0,0⟩ :=
  .of_entry (by decide) (by decide) (by decide) (by decide) (by decide)

theorem halfWritten_admissible : halfWritten.Admissible := by
  intro f hf _
  obtain rfl : f = 0 := by simpa [halfWritten] using hf
  refine ⟨⟨0,0⟩,rfl,⟨⟨halfWritten_mirror,by decide,by decide,by decide⟩,?_,?_,by decide⟩,
    halfWritten_singleAssignment,rfl,rfl,by decide⟩
  · intro i hi hop
    have hbr : i = 1 ∨ i = 3 ∨ i = 4 :=
      (by decide : ∀ i ∈ halfWritten.instrs 0, (halfWritten.instr i).op = .br →
        i = 1 ∨ i = 3 ∨ i = 4) i hi hop
    rcases hbr with rfl | rfl | rfl
    · exact .inr ⟨_,_,_,rfl⟩
    · exact .inl ⟨_,rfl⟩
    · exact .inl ⟨_,rfl⟩
  · exact fun i hi hop => absurd hop
      ((by decide : ∀ i ∈ halfWritten.instrs 0, (halfWritten.instr i).op ≠ .call) i hi)

/-- On the way where nothing is written the read gives zero, before and after. -/
theorem promoted_call_halfWritten :
    let w : World := ⟨.empty,.empty,[],"",∅⟩
    let r := (⟨9,w⟩ : Machine).call halfWritten "main" []
    let r' := (⟨9,w⟩ : Machine).call (halfWritten.promoted [0]) "main" []
    Machine.new halfWritten .empty "" 9 = some ⟨9,w⟩ ∧ halfWritten.Admissible ∧ w.Closed ∧
      ¬Spent r.2 ∧ r.2 = .ok .zero ∧ r'.2 = .ok .zero ∧ ∃ ι, SameEnd w r r' ι := by
  intro w r r'
  have hnew : Machine.new halfWritten .empty "" 9 = some ⟨9,w⟩ := rfl
  have hw : w.Closed :=
    Machine.new_closed (h := .empty) (fun o ho => absurd ho (Nat.not_lt_zero o)) hnew
  have hr : r.2 = .ok .zero := by decide +kernel
  have hn : ¬Spent r.2 := by
    rintro ⟨_,hs⟩
    cases hr.symm.trans hs
  exact ⟨hnew,halfWritten_admissible,hw,hn,hr,by decide +kernel,
    (promoted_call halfWritten_admissible (by decide) hw "main" (by simp)).1 9 hn⟩

end CMinusF
