import CMinusF.Proofs.Compilation.Accounting
import CMinusF.Proofs.Promotion.WellFormed

/-! The order of failures: stage by stage, and within each as the module lists the functions. -/
namespace CMinusF.Pipeline
open List
variable {m : Module} {s : State} {f : FuncId}

/-- The function has code that is not well-formed. -/
def FailsCheck (s : State) (f : FuncId) : Prop :=
  (s.module.func f).isDeclaration = false ∧ s.module.verify f ≠ .ok ()

/-- The function has code and no failure so far, and a transformation of it fails or leaves code
that is not well-formed. -/
def Fails (transform : Module → FuncId → Module × Option Failure) (s : State) (f : FuncId) : Prop :=
  ((s.module.func f).isDeclaration || s.failed f) = false ∧
    ((transform s.module f).2 ≠ none ∨ (transform s.module f).1.verify f ≠ .ok ())

def promotion (m : Module) (f : FuncId) : Module × Option Failure :=
  let r := Promotion.run m f (m.dominators f)
  (r.module,r.failure)

def hoisting (p : Purity) (m : Module) (f : FuncId) : Module × Option Failure :=
  let r := Hoisting.run m f (m.findLoops f (m.dominators f)) p
  (r.module,r.failure)

def State.culprits (s : State) : List FuncId := s.failures.map (·.1)

def turn (step : State → FuncId → State) (s : State) (fs : List FuncId) (f : FuncId) : State :=
  (fs.takeWhile (· ≠ f)).foldl step s

/-- A step over functions that records those that fail. -/
structure Records (step : State → FuncId → State) (Fails : State → FuncId → Prop) : Prop where
  fails : ∀ s f, Fails s f → (step s f).culprits = s.culprits ++ [f]
  passes : ∀ s f, ¬Fails s f → (step s f).culprits = s.culprits

theorem records_check : Records check FailsCheck where
  fails s f h := by
    obtain ⟨hdef,hv⟩ := h
    have hfind : ∃ e, finding? s.module f = some (f,e) := by
      rw [finding?,if_neg (by simp [hdef])]
      cases hverify : s.module.verify f with
      | ok _ => exact absurd hverify hv
      | error e => exact ⟨e,rfl⟩
    obtain ⟨e,he⟩ := hfind
    rw [check_eq,he]
    exact map_append
  passes s f h := by
    have hfind : finding? s.module f = none := by
      rw [finding?]
      split
      · rfl
      · rename_i hdef
        have hv : s.module.verify f = .ok () :=
          Decidable.byContradiction fun hv => h ⟨Bool.eq_false_iff.mpr hdef,hv⟩
        rw [hv]
    rw [check_eq,hfind,Option.toList_none,append_nil]

section
variable {stage : Stage} {n : Module} {failure : Option Failure} {stats : Stats}

theorem culprits_conclude_of_fails (h : failure ≠ none ∨ n.verify f ≠ .ok ()) :
    (conclude stage s f n failure stats).culprits = s.culprits ++ [f] := by
  unfold conclude
  cases failure with
  | some e => exact map_append
  | none =>
    cases hverify : n.verify f with
    | ok _ => exact absurd hverify (h.resolve_left fun hne => hne rfl)
    | error e => exact map_append

theorem culprits_conclude_of_passes (hv : n.verify f = .ok ()) :
    (conclude stage s f n none stats).culprits = s.culprits := by
  simp only [conclude,hv,State.culprits]

end

theorem records_conclude (stage : Stage) (transform : Module → FuncId → Module × Option Failure)
    (stats : State → FuncId → Stats) :
    Records (fun s f => if (s.module.func f).isDeclaration || s.failed f then s
      else conclude stage s f (transform s.module f).1 (transform s.module f).2 (stats s f))
        (Fails transform) where
  fails s f h := by
    rw [if_neg (Bool.eq_false_iff.mp h.1)]
    exact culprits_conclude_of_fails h.2
  passes s f h := by
    split
    · rfl
    · rename_i hgo
      obtain ⟨hnone,hv⟩ := not_or.mp fun hbad => h ⟨Bool.eq_false_iff.mpr hgo,hbad⟩
      rw [Decidable.not_not.mp hnone]
      exact culprits_conclude_of_passes (Decidable.not_not.mp hv)

/-- Over a list of functions, those that fail in their turn are recorded in the order of the list.
-/
theorem Records.foldl {step : State → FuncId → State} {Fails : State → FuncId → Prop}
    (h : Records step Fails) {fs : List FuncId} (hnd : fs.Nodup) (s : State) : ∃ gs, gs <+ fs ∧
      (fs.foldl step s).culprits = s.culprits ++ gs ∧
      ∀ f ∈ fs, f ∈ gs ↔ Fails (turn step s fs f) f := by
  induction fs generalizing s with
  | nil => exact ⟨[],.slnil,by simp,by simp⟩
  | cons g fs ih =>
    obtain ⟨hg,hnd⟩ := nodup_cons.mp hnd
    obtain ⟨gs,hsub,hnames,hmem⟩ := ih hnd (step s g)
    have hself : turn step s (g :: fs) g = s := by simp [turn]
    have hlater : ∀ f ∈ fs, turn step s (g :: fs) f = turn step (step s g) fs f ∧ f ≠ g := by
      intro f hf
      have hne : f ≠ g := fun he => hg (he ▸ hf)
      exact ⟨by simp [turn,hne.symm],hne⟩
    rw [foldl_cons,hnames]
    by_cases hfail : Fails s g
    · refine ⟨g :: gs,hsub.cons_cons g,by simp [h.fails s g hfail],
        forall_mem_cons.mpr ⟨by simp [hself,hfail],fun f hf => ?_⟩⟩
      simp_all
    · refine ⟨gs,hsub.cons g,by rw [h.passes s g hfail],forall_mem_cons.mpr ⟨?_,fun f hf => ?_⟩⟩
      · grind
      · rw [(hlater f hf).1,hmem f hf]

/-- Members of a list are listed in its order if each two of them are. -/
theorem sublist_iff_pairwise {α : Type} {l xs : List α} (hl : l.Nodup) (hxs : xs ⊆ l) :
    xs <+ l ↔ xs.Pairwise fun x y => [x,y] <+ l := by
  refine ⟨fun h => pairwise_iff_forall_sublist.mpr fun h' => h'.trans h,fun h => ?_⟩
  induction l generalizing xs with
  | nil => exact subset_nil.mp hxs ▸ .slnil
  | cons z l ih =>
    obtain ⟨hz,hl⟩ := nodup_cons.mp hl
    have hlater : ∀ {x y}, x ≠ z → [x,y] <+ z :: l → [x,y] <+ l := fun hx h =>
      (cons_sublist_cons'.mp h).resolve_right fun he => hx he.1
    -- only the first of the members can be the first of the list
    have htail : ∀ {ws}, z ∉ ws → ws ⊆ z :: l → ws.Pairwise (fun x y => [x,y] <+ z :: l) →
      ws <+ l := fun hw hsub h =>
      ih hl (fun y hy => (mem_cons.mp (hsub hy)).resolve_left fun he => hw (he ▸ hy))
        (h.imp_of_mem fun hx _ h => hlater (fun he => hw (he ▸ hx)) h)
    cases xs with
    | nil => exact nil_sublist _
    | cons w ws =>
      obtain ⟨hw,hws⟩ := pairwise_cons.mp h
      have hnot : z ∉ ws := fun hmem => by grind
      by_cases hwz : w = z
      · exact hwz ▸ (htail hnot (subset_of_cons_subset hxs) hws).cons_cons w
      · exact (htail (by simp [hnot,Ne.symm hwz]) hxs h).cons z

/-- A function that fails is recorded once. The failures come from the first check, from promotion
and from hoisting, in this order and each time in that of the functions, so they are all in that
order if and only if no function failed before one that stands ahead of it. -/
theorem failures_by_stage (hnd : m.funcs.Nodup) (o : Options) :
    let s₀ : State := ⟨m,default,[]⟩
    let s₁ := m.funcs.foldl check s₀
    let s₂ := if o.promote then m.funcs.foldl promote s₁ else s₁
    let p := s₂.module.purity
    ∃ a b c : List FuncId, (run m o).culprits = a ++ b ++ c ∧ (a ++ b ++ c).Nodup ∧ a <+ m.funcs ∧
      b <+ m.funcs ∧ c <+ m.funcs ∧
    (∀ f ∈ m.funcs, (f ∈ a ↔ FailsCheck (turn check s₀ m.funcs f) f) ∧
      (f ∈ b ↔ o.promote ∧ Fails promotion (turn promote s₁ m.funcs f) f) ∧
      (f ∈ c ↔ o.hoist ∧ Fails (hoisting p) (turn (hoist p) s₂ m.funcs f) f)) ∧
    ((run m o).culprits <+ m.funcs ↔ (∀ f ∈ a, ∀ g ∈ b ++ c, [f,g] <+ m.funcs) ∧
      ∀ f ∈ b, ∀ g ∈ c, [f,g] <+ m.funcs) := by
  intro s₀ s₁ s₂ p
  have hstage : ∀ {step Fails} (_ : Records step Fails) (on : Bool) (s : State), ∃ gs,
    gs <+ m.funcs ∧
      (if on then m.funcs.foldl step s else s).culprits = s.culprits ++ gs ∧
      ∀ f ∈ m.funcs, f ∈ gs ↔ on ∧ Fails (turn step s m.funcs f) f := by
    intro step Fails h on s
    cases on with
    | false => exact ⟨[],nil_sublist _,by simp,by simp⟩
    | true => simpa using h.foldl hnd s
  obtain ⟨a,ha,hca,hma⟩ := records_check.foldl hnd s₀
  obtain ⟨b,hb,hcb,hmb⟩ :=
    hstage (show Records promote _ from records_conclude .promotion promotion _) o.promote s₁
  obtain ⟨c,hc,hcc,hmc⟩ :=
    hstage (show Records (hoist p) _ from records_conclude .hoisting (hoisting p) _) o.hoist s₂
  have hrun : (run m o).culprits = a ++ b ++ c :=
    hcc.trans (congrArg (· ++ c) (hcb.trans (congrArg (· ++ b) hca)))
  refine ⟨a,b,c,hrun,hrun ▸ (recorded_run hnd o).once,ha,hb,hc,
    fun f hf => ⟨hma f hf,hmb f hf,hmc f hf⟩,?_⟩
  have hsub : a ++ (b ++ c) ⊆ m.funcs :=
    append_subset.mpr ⟨ha.subset,append_subset.mpr ⟨hb.subset,hc.subset⟩⟩
  have hpair : ∀ {xs : List FuncId}, xs <+ m.funcs →
    xs.Pairwise fun f g => [f,g] <+ m.funcs := fun h =>
    (sublist_iff_pairwise hnd h.subset).mp h
  rw [hrun,append_assoc,sublist_iff_pairwise hnd hsub,pairwise_append,pairwise_append]
  simp only [hpair ha,hpair hb,hpair hc,true_and,and_comm]

/-- A second function, of a block with nothing in it, behind one that only promotion breaks. -/
def brokenPair : Module :=
  { storedBlock with
    funcs := [0,1]
    funcTable := ⟨storedBlock.funcTable.rows.push ⟨"g",.void,[],[⟨1,0⟩],⟨#[⟨"entry",[],[],[],[]⟩]⟩,
      0,.empty,[]⟩⟩ }

/-- It is reported first. -/
theorem brokenPair_reversed : brokenPair.funcs = [0,1] ∧
    (run brokenPair ⟨true,false⟩).culprits = [1,0] ∧
    ¬(run brokenPair ⟨true,false⟩).culprits <+ brokenPair.funcs := by
  have h : (run brokenPair ⟨true,false⟩).culprits = [1,0] := by decide +kernel
  exact ⟨rfl,h,by rw [h]; decide⟩

theorem failures_by_stage_brokenPair : brokenPair.funcs.Nodup ∧
    ∃ a b c, (run brokenPair ⟨true,true⟩).culprits = a ++ b ++ c ∧
    (a ++ b ++ c).Nodup ∧ 0 ∈ b ∧ 1 ∈ a := by
  have hnd : brokenPair.funcs.Nodup := by decide
  obtain ⟨a,b,c,h,hn,-,-,-,hf,-⟩ := failures_by_stage hnd ⟨true,true⟩
  refine ⟨hnd,a,b,c,h,hn,(hf 0 (by decide)).2.1.mpr ⟨rfl,?_⟩,(hf 1 (by decide)).1.mpr ?_⟩
  · exact ⟨by decide +kernel,.inr (by decide +kernel)⟩
  · exact ⟨by decide +kernel,by decide +kernel⟩

end CMinusF.Pipeline
