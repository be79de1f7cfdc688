import CMinusF.Proofs.Graph.Same
import CMinusF.Proofs.Promotion.Preserve
import CMinusF.Proofs.Promotion.Simulation

/-! Promoting the locals of one function of a module, seen from all its functions. -/
namespace CMinusF
open CMinusF.Module List
variable {m n : Module} {f k : FuncId} {e : BlockId} {D : Draft}

def Plan.identity : Plan :=
  ⟨fun _ => false,fun _ => .hole,fun _ => [],fun _ => 0,fun _ _ => none,fun _ _ => none⟩

theorem Plan.keeps_identity (m : Module) (i : InstrId) : Plan.identity.keeps m i = true := by
  rw [keeps_iff]
  refine ⟨rfl,?_,?_⟩
  · by_contra hne
    obtain ⟨a,ha⟩ := Option.ne_none_iff_exists'.mp hne
    cases ((loadOf?_eq_some ..).mp ha).2.2
  · by_contra hne
    obtain ⟨a,ha⟩ := Option.ne_none_iff_exists'.mp hne
    cases ((storeOf?_eq_some ..).mp ha).2.2

theorem Plan.subst_identity (m : Module) (v : Operand) : Plan.identity.subst m v = v := by
  cases v with
  | instr l =>
    have := ((keeps_iff ..).mp (keeps_identity m l)).2.1
    rw [subst,this]
    rfl
  | _ => rfl

theorem Promotes.identity (hF : Formed m f e) (h : SameOn m n f)
    (hl : ∀ i ∈ m.instrs f, ∀ c, .literal c ∈ m.operands i →
      (n.literal c).value = (m.literal c).value) :
    Promotes m n f e .identity := by
  have hload : ∀ i, Plan.identity.loadOf? m i = none :=
    fun i => ((Plan.keeps_iff ..).mp (Plan.keeps_identity m i)).2.1
  have hstore : ∀ i, Plan.identity.storeOf? m i = none :=
    fun i => ((Plan.keeps_iff ..).mp (Plan.keeps_identity m i)).2.2
  have hthrough : ∀ is, Plan.identity.through m (fun _ => none) is = fun _ => none := by
    intro is
    induction is with
    | nil => rfl
    | cons i is ih =>
      rw [Plan.through,foldl_cons,Plan.after_of_storeOf?_none _ m (hstore i)]
      exact ih
  have hfed : ∀ is, LoadsFed m n .identity (fun _ => none) is := by
    intro is
    induction is with
    | nil => trivial
    | cons i is ih =>
      refine ⟨fun a ha => ?_,?_⟩
      · rw [hload] at ha
        cases ha
      · rw [Plan.after_of_storeOf?_none _ m (hstore i)]
        exact ih
  refine ⟨h.layout,?_,?_,hl,?_,?_,?_,?_,?_,?_,?_,fun _ => rfl,?_,?_,?_,?_,?_⟩
  · intro b hb
    rw [h.instrs_block hb,instrs_eq_phis_append,
      filter_eq_self.mpr fun i _ => Plan.keeps_identity m i]
    simp [Plan.identity]
  · intro i hi _
    refine ⟨(h.lasts hi).op,(h.lasts hi).type,(h.lasts hi).object,?_⟩
    rw [h.operands hi,map_congr_left fun v _ => Plan.subst_identity m v,map_id']
  · intro b _ p hp
    cases hp
  · have hline : ∀ b, Plan.identity.line m b = (m.block b).instrs := by
      intro b
      rw [instrs_eq_phis_append]
      simp [Plan.line,Plan.identity]
    rw [flatMap_congr fun b _ => hline b]
    exact hF.nodup
  · intro a ha
    cases ha
  · intro a ha
    cases ha
  · intro i _ _ a _
    rfl
  · intro i _ a _ x _
    rfl
  · intro q _ s _ p hp
    cases hp
  · intro b _ p hp
    cases hp
  · intro b _ x _
    refine ⟨fun q _ _ => rfl,fun j hj => ?_⟩
    cases hj
  · intro b _
    exact (hthrough _).symm
  · intro b _
    exact hfed _
  · intro b _ pre l post _ hl
    rw [hload] at hl
    cases hl

namespace Finished
variable {e' b : BlockId} {names : Promotion.Names}
  {start finish : BlockId → InstrId → Option Operand} {r : Promotion.Renaming} {g : InstrId →
    Bool} {i j : InstrId}

variable (h : Finished m n f e names D start finish r g)
include h

theorem func_of_gone (hF : Formed m f e)
    (hi : (D.base names.tracked.get).keeps m i = false) (hb : (m.instr i).parent = some b) :
    b.func = f := by
  have hin : ∃ c ∈ (m.func f).layout, i ∈ m.body c := by
    have hcase := (D.base names.tracked.get).keeps_or m i
    rw [hi] at hcase
    rcases hcase.resolve_left (by simp) with hp | ⟨a,ha⟩ | ⟨a,ha⟩
    · exact (h.promotable.alloca i hp).1
    · obtain ⟨_,ho,hp⟩ := (Plan.loadOf?_eq_some ..).mp ha
      exact h.promotable.linked a hp i (mem_operands_of_operand ho (by simp))
    · obtain ⟨_,ho,hp⟩ := (Plan.storeOf?_eq_some ..).mp ha
      exact h.promotable.linked a hp i (mem_operands_of_operand ho (by simp))
  obtain ⟨c,hc,hic⟩ := hin
  rw [hF.parent c hc i (body_subset m c hic),Option.some.injEq] at hb
  exact hb ▸ hF.owned c hc

theorem keeps_of_func (hF : Formed m f e) (hk : k ≠ f)
    (hb : (m.instr i).parent = some b) (hbk : b.func = k) :
    (D.base names.tracked.get).keeps m i = true := by
  by_contra hne
  exact hk (hbk ▸ h.func_of_gone hF (eq_false_of_ne_true hne) hb)

theorem sameOn (hF : Formed m f e) (hk : k ≠ f) (hFk : Formed m k e') :
    SameOn m n k := by
  have hparent : ∀ i ∈ m.instrs k, ∃ b, (m.instr i).parent = some b ∧ b.func = k := by
    intro i hi
    obtain ⟨b,hb,hib⟩ := Module.mem_instrs_iff.mp hi
    exact ⟨b,hFk.parent b hb i hib,hFk.owned b hb⟩
  have hsz : ∀ {i b}, (m.instr i).parent = some b → i < m.instrTable.size :=
      fun hb => lt_size_of_ne fun hd => by
    rw [hd] at hb
    cases hb
  refine ⟨h.drafted.fits.funcs,h.layout_eq k,
    fun b hb => h.drafted.fits.elsewhere b fun hbf => ?_,?_,?_⟩
  · exact hk ((hFk.owned b hb).symm.trans (hF.owned b hbf))
  · intro i hi
    obtain ⟨b,hb,hbk⟩ := hparent i hi
    have hid : ∀ v ∈ m.operands i, (D.base names.tracked.get).subst m v = v := by
      intro v hv
      cases v with
      | instr l =>
        obtain ⟨c,hc,hck⟩ := hFk.home i hi l hv
        have := ((Plan.keeps_iff ..).mp (h.keeps_of_func hF hk hc hck)).2.1
        rw [Plan.subst,this]
        rfl
      | _ => rfl
    rw [h.operands_eq (hsz hb) (h.keeps_of_func hF hk hb hbk),map_congr_left hid,map_id']
    rfl
  · intro i hi j hj
    obtain ⟨c,hc,hck⟩ := hFk.home i hi j hj
    refine ⟨(h.op_eq (hsz hc)).2.1,?_⟩
    have := congrArg Instr.parent (h.operands_eq (hsz hc) (h.keeps_of_func hF hk hc hck))
    exact this

theorem rooted_other (hF : Formed m f e) (hk : k ≠ f) (hRk : Rooted m k e') :
    Rooted n k e' := by
  have hFk := hRk.runnable.toFormed
  have hs := h.sameOn hF hk hFk
  -- what stands for something is a value of `f`
  have hno : ∀ i ∈ m.instrs k, ¬Resolved m f names (.instr i) := by
    intro i hi hres
    obtain ⟨b,hb,hib⟩ := Module.mem_instrs_iff.mp hi
    obtain ⟨_,c,hc,hcf⟩ := (hres.instr i rfl).2.2.1 (hFk.lt_size hb hib)
    rw [hFk.parent b hb i hib,Option.some.injEq] at hc
    exact hk (by rw [← hFk.owned b hb,hc,hcf])
  refine ⟨hRk.runnable.of_same hs,h.drafted.mirror,?_,?_,?_⟩
  · rw [(h.edges_eq e').2]
    exact hRk.entry_preds
  · rw [hs.instrs]
    intro i hi hop
    rw [(hs.lasts hi).op] at hop
    rw [hs.instrs_block hFk.entry_mem]
    exact hRk.allocas i hi hop
  · rw [hs.instrs]
    intro i hi u hu
    have hu := (h.drafted.mirror.mem_uses_iff (by simp) u).mp hu
    rcases h.user_cases hu with ⟨_,_,⟨hiu,_⟩ | ⟨l,_,hl⟩⟩ | ⟨_,x,hx,hxi⟩
    · exact hRk.linked i hi u ((hRk.mirror.mem_uses_iff (by simp) u).mpr hiu)
    · exact absurd (h.complete.renamed.resolved l _ hl) (hno i hi)
    · exact absurd (hxi ▸ h.complete.renamed.fed u x hx) (hno i hi)

end Finished

/-- Every function with code is as the pass expects it. -/
def Module.AllReady (m : Module) : Prop :=
  ∀ f ∈ m.funcs, (m.func f).isDeclaration = false → ∃ e, Rooted m f e

namespace Module.AllReady

theorem func_eq (h : Drafted m n f D) (k : FuncId) :
    (n.func k).name = (m.func k).name ∧ (n.func k).params = (m.func k).params ∧
      (n.func k).layout = (m.func k).layout := by
  have h1 := congrArg Func.name (h.fits.func k)
  have h2 := congrArg Func.params (h.fits.func k)
  have h3 := congrArg Func.layout (h.fits.func k)
  exact ⟨h1,h2,h3⟩

theorem run_of_no_candidates (m : Module) (f : FuncId)
    (h : (m.func f).isDeclaration = true ∨ Promotion.candidates m f = []) :
    (Promotion.run m f (m.dominators f)).module = m ∧
    (Promotion.run m f (m.dominators f)).failure = none := by
  have hc : ((m.func f).isDeclaration || (Promotion.candidates m f).isEmpty) = true := by
    rcases h with h | h <;> simp [h]
  unfold Promotion.run
  simp only [hc,↓reduceIte,and_self]

theorem isDeclaration_eq (h : (n.func k).layout = (m.func k).layout) :
    (n.func k).isDeclaration = (m.func k).isDeclaration := by
  rw [Func.isDeclaration,Func.isDeclaration,h]

theorem promotesAll_self (h : m.AllReady) : PromotesAll m m := by
  refine ⟨fun _ _ => rfl,fun _ _ => rfl,fun _ _ => rfl,fun k hk hd => ?_⟩
  obtain ⟨e,he⟩ := h k hk hd
  exact ⟨e,.identity,he.runnable,.identity he.runnable.toFormed
    ⟨rfl,rfl,fun _ _ => rfl,fun _ _ => rfl,fun _ _ _ _ => ⟨rfl,rfl⟩⟩
    fun _ _ _ _ => rfl⟩

theorem run (h : m.AllReady) (hf : f ∈ m.funcs) :
    PromotesAll m (Promotion.run m f (m.dominators f)).module ∧
    (Promotion.run m f (m.dominators f)).module.AllReady ∧
    (Promotion.run m f (m.dominators f)).failure = none ∧
    (Promotion.run m f (m.dominators f)).module.funcs = m.funcs := by
  by_cases hc : (m.func f).isDeclaration = true ∨ Promotion.candidates m f = []
  · obtain ⟨h1,h2⟩ := run_of_no_candidates m f hc
    rw [h1]
    exact ⟨h.promotesAll_self,h,h2,rfl⟩
  · rw [not_or] at hc
    obtain ⟨e,he⟩ := h f hf (eq_false_of_ne_true hc.1)
    obtain ⟨names,D,start,finish,r,g,hfin,_,hfail⟩ := he.ready.finished hc.2
    generalize (Promotion.run m f (m.dominators f)).module = n at hfin
    have hfuncs : n.funcs = m.funcs := hfin.drafted.fits.funcs
    have hk := func_eq hfin.drafted
    refine ⟨⟨fun k _ => (hk k).1,fun k _ => (hk k).2.1,fun k _ => (hk k).2.2,fun k hk hd => ?_⟩,?_,
      hfail,hfuncs⟩
    · obtain ⟨e',he'⟩ := h k hk hd
      by_cases hkf : k = f
      · subst hkf
        exact ⟨e,_,he.runnable,hfin.promotes he⟩
      · exact ⟨e',.identity,he'.runnable,.identity he'.runnable.toFormed
          (hfin.sameOn he.runnable.toFormed hkf he'.runnable.toFormed) fun i _ c hc =>
            hfin.drafted.fits.literal c (he.mirror.literal_lt hc)⟩
    · intro k hk hd
      rw [hfuncs] at hk
      rw [isDeclaration_eq (func_eq hfin.drafted k).2.2] at hd
      obtain ⟨e',he'⟩ := h k hk hd
      by_cases hkf : k = f
      · subst hkf
        exact ⟨e,hfin.rooted he⟩
      · exact ⟨e',hfin.rooted_other he.runnable.toFormed hkf he'⟩

end Module.AllReady
end CMinusF
