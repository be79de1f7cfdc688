import CMinusF.Compilation
import CMinusF.Proofs.Assembly.Function
import CMinusF.Proofs.Compilation.Kin

/-! Failures are recorded once for each function, under its name, and a function without one is in
the listing. -/
namespace CMinusF
open CMinusF.Module List
variable {es : List (FuncId × Failure)} {f : FuncId} {m n : Module} {e : Failure} {s : State}

/-- Of the functions of `m`, now in the form they have in `n`, those that failed are recorded, each
once and by its name. -/
structure Recorded (m n : Module) (es : List (FuncId × Failure)) : Prop where
  kin : Kin m n
  once : (es.map (·.1)).Nodup
  defined : ∀ e ∈ es, e.1 ∈ m.funcs ∧ (m.func e.1).isDeclaration = false
  named : ∀ e ∈ es, e.2.func = (m.func e.1).name

theorem any_fst_eq_true : es.any (·.1 = f) = true ↔ f ∈ es.map (·.1) := by
  rw [any_eq_true,mem_map]
  simp only [decide_eq_true_eq]

namespace Recorded
variable {n' : Module}

theorem transform (h : Recorded m n es) (hk : Kin n n') : Recorded m n' es :=
  { h with kin := h.kin.trans hk }

theorem add (h : Recorded m n es) (hf : f ∈ m.funcs) (hdef : (m.func f).isDeclaration = false)
    (hnew : f ∉ es.map (·.1)) (he : e.func = (m.func f).name) : Recorded m n (es ++ [(f,e)]) where
  kin := h.kin
  once := by
    rw [map_append,nodup_append]
    refine ⟨h.once,by simp,fun a ha b hb => ?_⟩
    obtain rfl : b = f := by simpa using hb
    exact fun hab => hnew (hab ▸ ha)
  defined e' he' := by
    rcases mem_append.mp he' with he' | he'
    · exact h.defined e' he'
    · obtain rfl : e' = (f,e) := by simpa using he'
      exact ⟨hf,hdef⟩
  named e' he' := by
    rcases mem_append.mp he' with he' | he'
    · exact h.named e' he'
    · obtain rfl : e' = (f,e) := by simpa using he'
      exact he

theorem addAll (h : Recorded m n es) {fs : List FuncId} (hfs : fs.Nodup)
    (hsub : ∀ f ∈ fs, f ∈ m.funcs ∧ f ∉ es.map (·.1)) {g : FuncId → Option (FuncId × Failure)}
    (hg : ∀ f ∈ fs, ∀ e, g f = some e → e.1 = f ∧ (m.func f).isDeclaration = false ∧
      e.2.func = (m.func f).name) :
    Recorded m n (es ++ fs.filterMap g) := by
  induction fs generalizing es with
  | nil => rwa [filterMap_nil,append_nil]
  | cons f fs ih =>
    obtain ⟨hnot,hrest⟩ := nodup_cons.mp hfs
    have hsub' := fun k hk => hsub k (mem_cons_of_mem f hk)
    have hg' := fun k hk => hg k (mem_cons_of_mem f hk)
    rw [filterMap_cons]
    cases he : g f with
    | none => exact ih h hrest hsub' hg'
    | some e =>
      obtain ⟨rfl,hdef,hname⟩ := hg f mem_cons_self e he
      obtain ⟨hf,hnew⟩ := hsub _ mem_cons_self
      have hadd := h.add hf hdef hnew hname
      refine append_cons .. ▸ ih hadd hrest (fun k hk => ⟨(hsub' k hk).1,fun hmem => ?_⟩) hg'
      rw [map_append,mem_append] at hmem
      rcases hmem with hmem | hmem
      · exact (hsub' k hk).2 hmem
      · obtain rfl : k = e.1 := by simpa using hmem
        exact hnot hk

end Recorded

/-! What the transformations report. -/

theorem Promotion.func_of_eraseLocals {as : List InstrId}
    (h : eraseLocals f m as = (n,some e)) : e.func = (n.func f).name := by
  induction as generalizing m with
  | nil => cases h
  | cons a as ih =>
    rw [eraseLocals] at h
    split at h
    · exact ih h
    · cases h
      rfl

theorem Promotion.func_of_run {d : Dominance} (h : (run m f d).failure = some e) :
    e.func = ((run m f d).module.func f).name := by
  unfold run at h ⊢
  dsimp only at h ⊢
  split at h
  · cases h
  · rename_i hne
    rw [if_neg hne]
    split at h <;> rename_i heq
    · cases h
    · cases h
      exact Promotion.func_of_eraseLocals heq

theorem Hoisting.func_of_preheader (hs : s.failure = none) (k : Nat)
    (h : (preheader f s k).1.failure = some e) :
    e.func = ((preheader f s k).1.module.func f).name ∧ (preheader f s k).2 = none := by
  unfold preheader at h ⊢
  split at h
  · rw [hs] at h
    cases h
  · unfold makePreheader at h ⊢
    generalize s.module.addBlockBefore f "preheader" (s.forest.loop k).header = r at h ⊢
    dsimp only at h ⊢
    split at h
    · cases h
      exact ⟨rfl,rfl⟩
    · cases h

theorem Hoisting.func_of_run {t : Forest} {p : Purity} (hdef : (m.func f).isDeclaration = false)
    (h : (run m f t p).failure = some e) : e.func = ((run m f t p).module.func f).name := by
  -- the name is that of the function all along
  have hname : ∀ s k, Kin m s.module → (∀ e, s.failure = some e → e.func = (m.func f).name) →
      ∀ e, (runOnLoop p f s k).failure = some e → e.func = (m.func f).name := by
    intro s k hk hs e he
    unfold runOnLoop at he
    split at he
    · exact hs e he
    · rename_i hnone
      have hnone : s.failure = none := by simpa using hnone
      dsimp only at he
      split at he
      · exact hs e he
      · have hpre := Hoisting.func_of_preheader (f := f) hnone k (e := e)
        have hkin : Kin m (preheader f s k).1.module := by
          unfold preheader
          split
          · exact hk
          · exact ((Kin.stable m hdef).makePreheader hk k).1
        split at he <;> rename_i heq <;> rw [heq] at hpre hkin
        · exact (hpre he).1.trans (hkin.name f)
        · grind
  have hrun := foldlRecOn t.postorder (runOnLoop p f) (b := ⟨m,t,⟨0,0⟩,none⟩)
    (motive := fun s => Kin m s.module ∧ ∀ e, s.failure = some e → e.func = (m.func f).name)
      ⟨.refl m,fun _ h => by cases h⟩
    fun s hs k _ => ⟨(Kin.stable m hdef).runOnLoop p hs.1 k,hname s k hs.1 hs.2⟩
  exact (hrun.2 e h).trans (hrun.1.name f).symm

namespace Pipeline

theorem conclude_recorded {stage : Stage} {failure : Option Failure} {stats : Stats}
    (h : Recorded m n s.failures) (hf : f ∈ m.funcs) (hdef : (m.func f).isDeclaration = false)
    (hnew : f ∉ s.failures.map (·.1)) (he : ∀ e, failure = some e → e.func = (n.func f).name) :
    Recorded m (conclude stage s f n failure stats).module
      (conclude stage s f n failure stats).failures := by
  unfold conclude
  split
  · exact h.add hf hdef hnew ((he _ rfl).trans (h.kin.name f))
  · have hv := Meets.verify n f
    split
    · exact h
    · rename_i e hverify
      rw [hverify] at hv
      exact h.add hf hdef hnew (hv.trans (h.kin.name f))

def finding? (m : Module) (f : FuncId) : Option (FuncId × Failure) :=
  if (m.func f).isDeclaration then none
  else
    match m.verify f with
    | .ok _ => none
    | .error e => some (f,e)

theorem of_finding? {e : FuncId × Failure} (h : finding? m f = some e) :
    e.1 = f ∧ (m.func f).isDeclaration = false ∧ e.2.func = (m.func f).name := by
  unfold finding? at h
  have hv := Meets.verify m f
  split at h
  · cases h
  · rename_i hdef
    split at h
    · cases h
    · rename_i e' hverify
      rw [hverify] at hv
      cases h
      exact ⟨rfl,Bool.eq_false_iff.mpr hdef,hv⟩

theorem check_eq (s : State) (f : FuncId) :
    check s f = ⟨s.module,s.stats,s.failures ++ (finding? s.module f).toList⟩ := by
  unfold check finding?
  split
  · rw [Option.toList_none,append_nil]
  · cases s.module.verify f with
    | ok _ => rw [Option.toList_none,append_nil]
    | error e => rfl

theorem foldl_check (fs : List FuncId) (s : State) :
    fs.foldl check s = ⟨s.module,s.stats,s.failures ++ fs.filterMap (finding? s.module)⟩ := by
  induction fs generalizing s with
  | nil => simp
  | cons f fs ih =>
    rw [foldl_cons,ih,check_eq,filterMap_cons]
    cases finding? s.module f <;> simp

theorem recorded_check (hnd : m.funcs.Nodup) (stats : Stats) :
    Recorded m (m.funcs.foldl check ⟨m,stats,[]⟩).module
      (m.funcs.foldl check ⟨m,stats,[]⟩).failures := by
  rw [foldl_check]
  have hnone : Recorded m m [] := ⟨.refl m,nodup_nil,by simp,by simp⟩
  exact hnone.addAll hnd (fun f hf => ⟨hf,by simp⟩) fun f _ e => of_finding?

theorem recorded_promote (h : Recorded m s.module s.failures) (hf : f ∈ m.funcs) :
    Recorded m (promote s f).module (promote s f).failures := by
  unfold promote
  split
  · exact h
  · rename_i hgo
    simp only [Bool.or_eq_true,not_or,State.failed,any_fst_eq_true,Bool.not_eq_true] at hgo
    have hdef := (h.kin.declared f).symm.trans hgo.1
    have hk := (Kin.stable s.module hgo.1).promotion (.refl _) (s.module.dominators f)
    exact conclude_recorded (h.transform hk) hf hdef hgo.2 fun e he => Promotion.func_of_run he

theorem recorded_hoist (p : Purity) (h : Recorded m s.module s.failures) (hf : f ∈ m.funcs) :
    Recorded m (hoist p s f).module (hoist p s f).failures := by
  unfold hoist
  split
  · exact h
  · rename_i hgo
    simp only [Bool.or_eq_true,not_or,State.failed,any_fst_eq_true,Bool.not_eq_true] at hgo
    have hdef := (h.kin.declared f).symm.trans hgo.1
    have hk := (Kin.stable s.module hgo.1).hoisting (.refl _)
      (s.module.findLoops f (s.module.dominators f)) p
    exact conclude_recorded (h.transform hk) hf hdef hgo.2 fun e he => Hoisting.func_of_run hgo.1 he

theorem recorded_run (hnd : m.funcs.Nodup) (o : Options) :
    Recorded m (run m o).module (run m o).failures := by
  have h0 := recorded_check hnd default
  unfold run
  generalize m.funcs.foldl check ⟨m,default,[]⟩ = s0 at h0 ⊢
  dsimp only
  have h1 : ∀ {s1}, (if o.promote then m.funcs.foldl promote s0 else s0) = s1 →
      Recorded m s1.module s1.failures := by
    rintro s1 rfl
    split
    · exact foldlRecOn m.funcs promote (motive := fun s => Recorded m s.module s.failures) h0
        fun _ h _ hf =>
        recorded_promote h hf
    · exact h0
  generalize (if o.promote then m.funcs.foldl promote s0 else s0) = s1 at h1 ⊢
  split
  · exact foldlRecOn m.funcs (hoist s1.module.purity)
      (motive := fun s => Recorded m s.module s.failures) (h1 rfl)
      fun _ h _ hf => recorded_hoist _ h hf
  · exact h1 rfl

end Pipeline

namespace Compilation

theorem recorded_splitFunc {p : Prepared} (h : Recorded m p.module p.failures) (hf : f ∈ m.funcs) :
    Recorded m (splitFunc p f).module (splitFunc p f).failures := by
  unfold splitFunc
  split
  · exact h
  · rename_i hgo
    simp only [Prepared.isReady,Bool.not_eq_false,Bool.and_eq_true,Bool.not_eq_eq_eq_not,
      Bool.not_true] at hgo
    have hdef := (h.kin.declared f).symm.trans hgo.1
    have hnew : f ∉ p.failures.map (·.1) := fun hmem => by
      rw [any_fst_eq_true.mpr hmem] at hgo
      cases hgo.2
    have hk := (Kin.stable p.module hgo.1).splitCriticalEdges (.refl _)
    dsimp only
    split
    · exact h.transform hk
    · exact (h.transform hk).add hf hdef hnew ((h.transform hk).kin.name f)

theorem recorded_prepare (hnd : m.funcs.Nodup) (o : Options) :
    Recorded m (prepare m o).2.module (prepare m o).2.failures := by
  have h := Pipeline.recorded_run hnd o
  unfold prepare
  dsimp only
  refine foldlRecOn _ splitFunc (motive := fun p : Prepared => Recorded m p.module p.failures) h
    fun _ hp _ hf => ?_
  exact recorded_splitFunc hp (h.kin.funcs ▸ hf)

end Compilation
end CMinusF
