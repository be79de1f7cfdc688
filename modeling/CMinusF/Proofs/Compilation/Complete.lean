import CMinusF.Proofs.Compilation.Accounting
import CMinusF.Proofs.Lowering.Form

/-! Every function that a source defines is either listed, whole and once, or reported, once. -/
namespace CMinusF
open CMinusF.Assembly List
variable {m n : Module} {f : FuncId} {p : Program} {name : String}

def Module.defined (m : Module) : List FuncId := m.funcs.filter fun f => !(m.func f).isDeclaration

theorem Module.mem_defined : f ∈ m.defined ↔ f ∈ m.funcs ∧ (m.func f).isDeclaration = false := by
  rw [Module.defined,mem_filter,Bool.not_eq_true']

/-- Every function has a name of its own. -/
structure Module.Distinct (m : Module) : Prop where
  nodup : m.funcs.Nodup
  name : ∀ f ∈ m.funcs, ∀ g ∈ m.funcs, (m.func f).name = (m.func g).name → f = g

section

theorem Kin.distinct (h : Kin m n) (hm : m.Distinct) : n.Distinct where
  nodup := h.funcs ▸ hm.nodup
  name f hf g hg hfg := by
    rw [h.funcs] at hf hg
    rw [h.name,h.name] at hfg
    exact hm.name f hf g hg hfg

theorem Kin.defined (h : Kin m n) : n.defined = m.defined := by
  unfold Module.defined
  rw [h.funcs]
  exact filter_congr fun f _ => by rw [h.declared]

end

namespace Compilation

def lists (c : Compilation) (f : FuncId) : Bool :=
  c.listing.lines.contains (.directive (.function (c.module.func f).name))

section
variable {es : List (FuncId × Failure)}

theorem countP_of_recorded (h : Recorded m n es) (hm : m.Distinct) (hf : f ∈ m.funcs) :
    es.countP (·.2.func = (m.func f).name) = if f ∈ es.map (·.1) then 1 else 0 := by
  have hiff : ∀ e ∈ es, (decide (e.2.func = (m.func f).name) = true ↔ decide (e.1 = f) = true) := by
    intro e he
    rw [decide_eq_true_iff,decide_eq_true_iff,h.named e he]
    refine ⟨fun hn => hm.name _ (h.defined e he).1 _ hf hn,fun hn => by rw [hn]⟩
  have hcount : (es.map (·.1)).count f = es.countP (·.1 = f) := by
    rw [count,countP_map]
    exact countP_congr fun e _ => by simp
  rw [countP_congr hiff,← hcount]
  split
  · rename_i hmem
    exact count_eq_one_of_mem h.once hmem
  · rename_i hmem
    exact count_eq_zero.mpr hmem

theorem count_flatMap (hn : n.Distinct) {fs : List FuncId} (hfs : fs.Nodup)
    (hsub : ∀ g ∈ fs, g ∈ n.funcs) (hf : f ∈ n.funcs) :
    (fs.flatMap fun g => (functionLines n g).toOption.getD []).count
        (.directive (.function (n.func f).name)) =
      if f ∈ fs ∧ (functionLines n f).toOption.isSome then 1 else 0 := by
  induction fs with
  | nil => simp
  | cons g fs ih =>
    have hcode := meets_functionLines n g
    rw [flatMap_cons,count_append,ih (nodup_cons.mp hfs).2 fun k hk =>
      hsub k (mem_cons_of_mem g hk)]
    by_cases hg : g = f
    · subst hg
      have hnot : g ∉ fs := (nodup_cons.mp hfs).1
      cases hr : functionLines n g with
      | error e => simp [Except.toOption]
      | ok ls =>
        rw [hr] at hcode
        simp [Except.toOption,IsCodeOf.count hcode,hnot]
    · have hname : (n.func g).name ≠ (n.func f).name :=
        fun h => hg (hn.name g (hsub g mem_cons_self) f hf h)
      have hzero : ((functionLines n g).toOption.getD []).count
          (.directive (.function (n.func f).name)) = 0 := by
        cases hr : functionLines n g with
        | error e => rfl
        | ok ls =>
          rw [hr] at hcode
          exact (IsCodeOf.count hcode _).trans (if_neg hname)
      rw [hzero,Nat.zero_add]
      simp [Ne.symm hg]

end

/-! The listing. -/

/-- The failure of a function whose code cannot be written. -/
def misfit? (m : Module) (f : FuncId) : Option (FuncId × Failure) :=
  match functionLines m f with
  | .ok _ => none
  | .error e => some (f,e)

theorem of_misfit? {e : FuncId × Failure} (h : misfit? m f = some e) :
    e.1 = f ∧ e.2.func = (m.func f).name := by
  have hm := meets_functionLines m f
  unfold misfit? at h
  split at h
  · cases h
  · rename_i e' he
    rw [he] at hm
    cases h
    exact ⟨rfl,hm⟩

theorem failures_ofFuncs (m : Module) (fs : List FuncId) :
    (Listing.ofFuncs m fs).failures = fs.filterMap (misfit? m) := by
  unfold Listing.ofFuncs
  dsimp only
  rw [filterMap_map]
  rfl

theorem lines_ofFuncs (m : Module) (fs : List FuncId) : (Listing.ofFuncs m fs).lines =
    header m ++ fs.flatMap fun f => (functionLines m f).toOption.getD [] := by
  unfold Listing.ofFuncs
  dsimp only
  rw [flatMap_map]

theorem flatMap_filter (m : Module) (fs : List FuncId) :
    (fs.flatMap fun f => (functionLines m f).toOption.getD []) =
    (fs.filter fun f => (functionLines m f).toOption.isSome).flatMap fun f =>
      (functionLines m f).toOption.getD [] := by
  induction fs with
  | nil => rfl
  | cons f fs ih => cases hc : (functionLines m f).toOption <;> simp [hc,ih]

section
variable (m : Module) (o : Options)

def ready : List FuncId := (prepare m o).2.module.defined.filter (prepare m o).2.isReady

theorem listing_ofModule :
    (ofModule m o).listing = Listing.ofFuncs (prepare m o).2.module (ready m o) := by
  show Listing.ofModule (prepare m o).2.module (prepare m o).2.isReady = _
  rw [Listing.ofModule,ready,Module.defined,filter_filter]
  refine congrArg _ (filter_congr fun f _ => Bool.and_comm ..)

theorem failures_ofModule : (ofModule m o).failures =
    (prepare m o).2.failures ++ (ready m o).filterMap (misfit? (prepare m o).2.module) := by
  rw [← failures_ofFuncs,← listing_ofModule]
  rfl

variable {m}

theorem mem_ready : f ∈ ready m o ↔ f ∈ (prepare m o).2.module.defined ∧
    f ∉ (prepare m o).2.failures.map (·.1) := by
  rw [ready,mem_filter,Prepared.isReady,← any_fst_eq_true]
  constructor
  · grind
  · rintro ⟨hf,hr⟩
    rw [Bool.eq_false_iff.mpr hr,(Module.mem_defined.mp hf).2]
    exact ⟨hf,rfl⟩

theorem nodup_ready (hm : m.Distinct) : (ready m o).Nodup :=
  (((recorded_prepare hm.nodup o).kin.distinct hm).nodup.filter _).filter _

theorem recorded_ofModule (hm : m.Distinct) :
    Recorded m (ofModule m o).module (ofModule m o).failures := by
  have h := recorded_prepare hm.nodup o
  rw [failures_ofModule]
  show Recorded m (prepare m o).2.module _
  refine h.addAll (nodup_ready o hm) (fun f hf => ?_) fun f hf e he => ?_
  all_goals
    rw [mem_ready,h.kin.defined,Module.mem_defined] at hf
  · exact ⟨hf.1.1,hf.2⟩
  · obtain ⟨h1,h2⟩ := of_misfit? he
    exact ⟨h1,hf.1.2,h2.trans (h.kin.name f)⟩

theorem count_lines (hm : m.Distinct) (hf : f ∈ m.funcs) :
    (ofModule m o).listing.lines.count
      (.directive (.function ((ofModule m o).module.func f).name)) =
      if f ∈ ready m o ∧ (functionLines (ofModule m o).module f).toOption.isSome then 1 else 0 := by
  have h := recorded_prepare hm.nodup o
  rw [listing_ofModule,lines_ofFuncs,count_append,count_header,Nat.zero_add]
  refine count_flatMap (h.kin.distinct hm) (nodup_ready o hm) (fun g hg => ?_) (h.kin.funcs ▸ hf)
  exact (Module.mem_defined.mp ((mem_ready o).mp hg).1).1

theorem lists_iff (hm : m.Distinct) (hf : f ∈ m.funcs) : (ofModule m o).lists f = true ↔
    f ∈ ready m o ∧ (functionLines (ofModule m o).module f).toOption.isSome := by
  rw [lists,contains_iff_mem,← count_pos_iff,count_lines o hm hf]
  split <;> simp_all

theorem mem_failures_iff (hf : f ∈ (ofModule m o).module.defined) :
    f ∈ (ofModule m o).failures.map (·.1) ↔
    ¬ (f ∈ ready m o ∧ (functionLines (ofModule m o).module f).toOption.isSome) := by
  have hmisfit : f ∈ ((ready m o).filterMap (misfit? (prepare m o).2.module)).map (·.1) ↔
      f ∈ ready m o ∧ ¬ (functionLines (ofModule m o).module f).toOption.isSome := by
    rw [mem_map]
    constructor
    · rintro ⟨e,he,rfl⟩
      obtain ⟨g,hg,hmis⟩ := mem_filterMap.mp he
      rw [(of_misfit? hmis).1]
      refine ⟨hg,fun hok => ?_⟩
      unfold misfit? at hmis
      split at hmis
      · cases hmis
      · rename_i e' he'
        rw [show functionLines (ofModule m o).module g = _ from he'] at hok
        cases hok
    · rintro ⟨hr,hbad⟩
      cases hc : functionLines (ofModule m o).module f with
      | ok ls =>
        rw [hc] at hbad
        exact absurd rfl hbad
      | error e =>
        refine ⟨(f,e),mem_filterMap.mpr ⟨f,hr,?_⟩,rfl⟩
        unfold misfit?
        rw [show functionLines (prepare m o).2.module f = _ from hc]
  rw [failures_ofModule,map_append,mem_append,hmisfit,mem_ready]
  have hdef : f ∈ (prepare m o).2.module.defined := hf
  tauto

/-- Every function that has code is in the listing or reported. -/
structure Accounted (c : Compilation) : Prop where
  /-- The listing is the code of the functions in it, in the module's order. -/
  lines : c.listing.lines = header c.module ++
    (c.module.defined.filter c.lists).flatMap fun f => (functionLines c.module f).toOption.getD []
  listed : ∀ f ∈ c.module.defined, c.lists f = true →
    (∃ ls, functionLines c.module f = .ok ls ∧ IsCodeOf c.module f ls) ∧
    c.listing.lines.count (.directive (.function (c.module.func f).name)) = 1 ∧
    ∀ e ∈ c.failures, e.2.func ≠ (c.module.func f).name
  missing : ∀ f ∈ c.module.defined, c.lists f = false →
    c.failures.countP (·.2.func = (c.module.func f).name) = 1
  complete : c.failures = [] ↔ ∀ f ∈ c.module.defined, c.lists f = true

theorem accounted (hm : m.Distinct) : (ofModule m o).Accounted := by
  have hrec := recorded_ofModule o hm
  have hmem : ∀ f ∈ (ofModule m o).module.defined, f ∈ m.funcs := fun f hf => by
    rw [hrec.kin.defined] at hf
    exact (Module.mem_defined.mp hf).1
  have hcount : ∀ f ∈ (ofModule m o).module.defined,
    (ofModule m o).failures.countP (·.2.func = ((ofModule m o).module.func f).name) =
      if (ofModule m o).lists f = true then 0 else 1 := by
    intro f hf
    rw [hrec.kin.name,countP_of_recorded hrec hm (hmem f hf)]
    simp only [mem_failures_iff o hf,lists_iff o hm (hmem f hf)]
    split <;> simp_all
  refine ⟨?_,fun f hf hl => ⟨?_,?_,fun e he hname => ?_⟩,fun f hf hl => ?_,fun hnil f hf => ?_,
    fun hall => ?_⟩
  · rw [listing_ofModule,lines_ofFuncs]
    have hsame : (ready m o).filter
      (fun f => (functionLines (prepare m o).2.module f).toOption.isSome) =
        (ofModule m o).module.defined.filter (ofModule m o).lists := by
      rw [ready,filter_filter]
      refine filter_congr fun f hf => Bool.eq_iff_iff.mpr ?_
      rw [lists_iff o hm (hmem f hf),ready,mem_filter,Bool.and_eq_true]
      exact ⟨fun h => ⟨⟨hf,h.2⟩,h.1⟩,fun h => ⟨h.2,h.1.2⟩⟩
    rw [flatMap_filter,hsame]
    rfl
  · obtain ⟨hr,hok⟩ := (lists_iff o hm (hmem f hf)).mp hl
    have hcode := meets_functionLines (ofModule m o).module f
    cases hc : functionLines (ofModule m o).module f with
    | error e =>
      rw [hc] at hok
      cases hok
    | ok ls =>
      rw [hc] at hcode
      exact ⟨ls,rfl,hcode⟩
  · rw [count_lines o hm (hmem f hf),if_pos ((lists_iff o hm (hmem f hf)).mp hl)]
  · have hzero := hcount f hf
    rw [if_pos hl,countP_eq_zero] at hzero
    exact hzero e he (decide_eq_true hname)
  · rw [hcount f hf,hl]
    rfl
  · have := hcount f hf
    rw [hnil] at this
    by_contra hl
    rw [if_neg hl] at this
    cases this
  · refine eq_nil_iff_forall_not_mem.mpr fun e he => ?_
    obtain ⟨hf,hdef⟩ := hrec.defined e he
    have hd : e.1 ∈ (ofModule m o).module.defined := by
      rw [hrec.kin.defined]
      exact Module.mem_defined.mpr ⟨hf,hdef⟩
    have hzero := hcount e.1 hd
    rw [if_pos (hall _ hd),countP_eq_zero] at hzero
    exact hzero e he (decide_eq_true ((hrec.named e he).trans (hrec.kin.name e.1).symm))

end
end Compilation

/-! The functions of a source. -/

def Decl.functionName? : Decl → Option String
  | .variable _ => none
  | .function d => some d.name

def Program.functionNames (p : Program) : List String := p.decls.filterMap Decl.functionName?

def Module.definedNames (m : Module) : List String := m.defined.map fun f => (m.func f).name

namespace Lowering
variable {L : Law} {xs : List Builtin} {d d' : Declared} {ns ns' : Notes}

theorem definedNames_of_grows (hm : m.funcs = List.range m.funcTable.size) (hg : Grows m ns n ns') :
    (((List.range m.funcTable.size).filter fun f => !(n.func f).isDeclaration).map fun f =>
      (n.func f).name) = m.definedNames := by
  rw [Module.definedNames,Module.defined,hm]
  have hdecl : ∀ f < m.funcTable.size, (n.func f).isDeclaration = (m.func f).isDeclaration := by
    intro f hf
    rw [Bool.eq_iff_iff,Func.isDeclaration,Func.isDeclaration,List.isEmpty_iff,List.isEmpty_iff]
    exact hg.declared f hf
  rw [filter_congr fun f hf => by rw [hdecl f (mem_range.mp hf)]]
  exact map_congr_left fun f hf => hg.name f (mem_range.mp (mem_filter.mp hf).1)

theorem Sound.definedNames_functionDecl (h : Sound L xs d ns) (hneg : .negativeIndex ∈ xs)
    {f : FunctionDecl} (hw : L.declares (.function f)) (hf : Lowering.functionDecl d f = .ok d') :
    d'.module.definedNames = d.module.definedNames ++ [f.name] := by
  obtain ⟨-,t,hbody,rfl⟩ := functionDecl_eq_ok hf
  obtain ⟨ns1,hr,ha,hg1,-⟩ := h.ready hneg hw
  obtain ⟨h1,-,h3,-⟩ := func_withEntry d.module f.name (resultType f.result)
    (f.params.map parameterType)
  obtain ⟨⟨ns2,hc⟩,-⟩ := hr.functionBody ha rfl f h3 hw.1 () t hbody
  have hlt : d.module.funcTable.size < (bodyStart d f).module.funcTable.size := hr.func_lt
  have hname : (t.module.func d.module.funcTable.size).name = f.name :=
    (hc.grows.name _ hlt).trans h1
  have hsize : t.module.funcTable.size = d.module.funcTable.size + 1 :=
    hc.funcs.trans (joins_withEntry d.module _ _ _).funcTable
  have hlisted : t.module.Listed ⟨d.module.funcTable.size,0⟩ := hc.grows.listed _ hr.isOpen.1
  have hdef : (t.module.func d.module.funcTable.size).isDeclaration = false :=
    isEmpty_eq_false_iff_exists_mem.mpr ⟨_,hlisted⟩
  show t.module.definedNames = _
  rw [Module.definedNames,Module.defined,hc.built.funcs,hsize,range_succ,filter_append,map_append,
    definedNames_of_grows h.built.funcs (hg1.trans hc.grows),filter_singleton,hdef]
  simp [hname]

theorem Sound.definedNames_decls (h : Sound L xs d ns) (hneg : .negativeIndex ∈ xs) {ds : List Decl}
    (hw : ∀ x ∈ ds, L.declares x) (hx : ds.foldlM Lowering.decl d = .ok d') :
    d'.module.definedNames = d.module.definedNames ++ ds.filterMap Decl.functionName? := by
  induction ds generalizing d ns with
  | nil =>
    cases hx
    simp
  | cons x ds ih =>
    rw [foldlM_cons] at hx
    cases hd : Lowering.decl d x with
    | error e =>
      rw [hd] at hx
      cases hx
    | ok e =>
      rw [hd] at hx
      obtain ⟨ns1,h1,-⟩ := h.decl hneg (hw x mem_cons_self) hd
      have hrest := ih h1 (fun y hy => hw y (mem_cons_of_mem _ hy)) hx
      cases x with
      | «variable» v =>
        have hsame : e.module.definedNames = d.module.definedNames := by
          unfold Lowering.decl Lowering.globalDecl at hd
          dsimp only at hd
          split at hd
          · cases hd
          · cases hd
            rfl
        rw [hrest,hsame]
        rfl
      | function f =>
        rw [hrest,h.definedNames_functionDecl hneg (hw _ mem_cons_self) hd,append_assoc]
        rfl

theorem definedNames_of_lower (h : p.lower (.empty name) = .ok m) :
    m.definedNames = p.functionNames := by
  obtain ⟨ns,xs,hs,hall⟩ := Sound.start (L := anyLaw) (fun _ _ => trivial) name
  unfold Program.lower at h
  cases hd : p.decls.foldlM Lowering.decl (.start (.empty name)) with
  | error e =>
    rw [hd] at h
    cases h
  | ok d =>
    rw [hd] at h
    cases h
    rw [hs.definedNames_decls (hall _) (fun x _ => anyLaw_declares x) hd]
    rfl

theorem distinct_of_lower (h : p.lower (.empty name) = .ok m) : m.Distinct := by
  obtain ⟨ns,xs,d,hs,rfl⟩ := sound_of_lower (fun _ _ => trivial) (fun x _ => anyLaw_declares x) h
  have hfuncs := hs.built.funcs
  refine ⟨hfuncs ▸ nodup_range,fun f hf g hg hfg => ?_⟩
  rw [hfuncs,mem_range] at hf hg
  have hfind := hs.named f hf
  rw [hfg,hs.named g hg] at hfind
  exact (Option.some.inj hfind).symm

end Lowering

/-- Compiling an accepted source, each function that it defines is listed whole and once, in order,
and no failure names it, or it is not listed and one failure names it; there is no failure exactly
if all are listed. -/
theorem compilation_accounts {name source : String} {m : Module}
    (h : Module.ofSource name source = .ok m) (o : Options) :
    ∃ p, Program.parse name source = .ok p ∧ (Compilation.ofModule m o).module.definedNames =
      p.functionNames ∧
      p.functionNames.Nodup ∧ (Compilation.ofModule m o).Accounted := by
  obtain ⟨p,hparse,hlower⟩ := Module.ofSource_eq_ok h
  have hd := Lowering.distinct_of_lower hlower
  have hkin := (Compilation.recorded_ofModule o hd).kin
  have hnames := Lowering.definedNames_of_lower hlower
  refine ⟨p,hparse,?_,?_,Compilation.accounted o hd⟩
  · rw [Module.definedNames,hkin.defined,← hnames]
    exact List.map_congr_left fun f _ => hkin.name f
  · rw [← hnames]
    exact (hd.nodup.filter _).map_on fun f hf g hg => hd.name f (List.mem_filter.mp hf).1 g
      (List.mem_filter.mp hg).1

/-- Of two functions, the one with nine parameters has no code. -/
theorem compilation_accounts_nine :
    let source := "int nine(int a,int b,int c,int d,int e,int f,int g,int h,int i) { return i; } int main(void) { return 0; }"
    ∃ m p, Module.ofSource "nine" source = .ok m ∧ Program.parse "nine" source = .ok p ∧
      p.functionNames = ["nine","main"] ∧
      (Compilation.ofModule m ⟨true,true⟩).module.definedNames = p.functionNames ∧
      (Compilation.ofModule m ⟨true,true⟩).Accounted ∧
      ((Compilation.ofModule m ⟨true,true⟩).module.defined.map
        (Compilation.ofModule m ⟨true,true⟩).lists) = [false,true] := by
  intro source
  obtain ⟨m,hm,hl⟩ := Module.exists_ofSource "nine" source (fun m =>
    (Compilation.ofModule m ⟨true,true⟩).module.defined.map
      (Compilation.ofModule m ⟨true,true⟩).lists = [false,true]) (by decide +kernel)
  obtain ⟨p,hp,hnames,-,hacc⟩ := compilation_accounts hm ⟨true,true⟩
  have hdecls : (Program.parse "nine" source).toOption.any
      (fun p => p.functionNames = ["nine","main"]) = true := by
    decide +kernel
  rw [hp] at hdecls
  exact ⟨m,p,hm,hp,of_decide_eq_true hdecls,hnames,hacc,of_decide_eq_true hl⟩

end CMinusF
