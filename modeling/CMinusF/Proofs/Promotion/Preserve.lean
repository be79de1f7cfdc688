import CMinusF.Proofs.Promotion.Result

/-! Promoting the locals of a function leaves it well-formed, and every other function as it was. -/
namespace CMinusF
open CMinusF.Module List

namespace Finished
variable {pre post : List InstrId}
variable {m n : Module} {f : FuncId} {e b c : BlockId} {names : Promotion.Names} {D : Draft}
  {start finish : BlockId → InstrId → Option Operand} {r : Promotion.Renaming} {g : InstrId →
    Bool} {i j : InstrId}

variable (h : Finished m n f e names D start finish r g)
include h

theorem edges_eq (b : BlockId) :
    n.succs b = m.succs b ∧ n.preds b = m.preds b := by
  by_cases hb : b ∈ (m.func f).layout
  · exact (lists_of_code (h.drafted.fits.block b hb)).2
  · exact (lists_of_code (h.drafted.fits.elsewhere b hb)).2

theorem layout_eq (k : FuncId) : (n.func k).layout = (m.func k).layout := by
  have := congrArg Func.layout (h.drafted.fits.func k)
  exact this

theorem op_eq (hi : i < m.instrTable.size) :
    (n.instr i).op = (m.instr i).op ∧ (n.instr i).type = (m.instr i).type ∧
    (n.instr i).object = (m.instr i).object :=
  h.drafted.fits.instr_op hi

theorem phis_eq (hF : Formed m f e) (hb : b ∈ (m.func f).layout) :
    n.phis b = m.phis b ++ D.newPhis b := by
  refine phis_of_instrs (h.instrs_eq hb) ?_ ?_
  · intro i hi
    rcases mem_append.mp hi with hi | hi
    · exact (h.op_eq (hF.lt_size hb (phis_subset m b hi))).1.trans (op_of_mem_phis hi)
    · exact (h.drafted.fits.newPhi b i hi).2.1
  · intro i hi
    have hi := (mem_filter.mp hi).1
    rw [(h.op_eq (hF.lt_size hb (body_subset m b hi))).1]
    exact hF.not_phi b hb i hi

theorem body_eq (hF : Formed m f e) (hb : b ∈ (m.func f).layout) :
    n.body b = (m.body b).filter ((D.base names.tracked.get).keeps m) := by
  rw [body,h.phis_eq hF hb,h.instrs_eq hb,drop_left]

theorem reaches_eq : n.Reaches = m.Reaches :=
  reaches_congr fun b => (h.edges_eq b).1

theorem dominates_eq : n.Dominates = m.Dominates :=
  dominates_congr fun b => (h.edges_eq b).1

theorem keeps_of_resolved (hF : Formed m f e)
    (hj : Resolved m f names (.instr j)) (hlt : j < m.instrTable.size) :
    (D.base names.tracked.get).keeps m j = true := by
  obtain ⟨h1,h2,h3,_⟩ := hj.instr j rfl
  refine (Plan.keeps_iff ..).mpr ⟨h1,h2,?_⟩
  by_contra hs
  obtain ⟨a,ha⟩ := Option.ne_none_iff_exists'.mp hs
  obtain ⟨hop,ho,hp⟩ := (Plan.storeOf?_eq_some ..).mp ha
  obtain ⟨c,hc,hjc⟩ := h.promotable.linked a hp j (mem_operands_of_operand ho (by simp))
  have hvoid := hF.store_void j (Module.mem_instrs_iff.mpr ⟨c,hc,body_subset m c hjc⟩) hop
  rw [(h3 hlt).1] at hvoid
  cases hvoid

theorem mem_instrs_of_resolved (hF : Formed m f e)
    (hj : Resolved m f names (.instr j)) (hb : b ∈ (m.func f).layout) (hjb : j ∈ D.line m b) :
    j ∈ (n.block b).instrs ∧ (j ∈ m.body b → (D.base names.tracked.get).keeps m j = true) := by
  have hkeep : j ∈ m.body b → (D.base names.tracked.get).keeps m j = true := fun hjb =>
    h.keeps_of_resolved hF hj (hF.lt_size hb (body_subset m b hjb))
  refine ⟨?_,hkeep⟩
  rw [h.instrs_eq hb]
  rcases mem_append.mp hjb with hjb | hjb
  · exact mem_append_left _ hjb
  · exact mem_append_right _ (mem_filter.mpr ⟨hjb,hkeep hjb⟩)

theorem available (hF : Formed m f e)
    (hj : Resolved m f names (.instr j)) (hb : m.Reaches e b) (hpre : pre ⊆ m.body b)
    (hr : Reached m e D b pre j) :
    Available n (fun c => (n.block c).instrs) e b
      (m.phis b ++ D.newPhis b ++ pre.filter ((D.base names.tracked.get).keeps m)) j := by
  rcases hr with hr | ⟨c,hc,hcb,hjc⟩
  · left
    rcases mem_append.mp hr with hr | hr
    · exact mem_append_left _ hr
    · have hbody := hpre hr
      have := (h.mem_instrs_of_resolved hF hj (hF.mem_layout hb) (mem_append_right _ hbody)).2 hbody
      exact mem_append_right _ (mem_filter.mpr ⟨hr,this⟩)
  · have hcl := hF.mem_layout (hcb.reaches hb)
    exact .inr ⟨c,hc,h.dominates_eq ▸ hcb,(h.mem_instrs_of_resolved hF hj hcl hjc).1⟩

theorem resolved_subst (hF : Formed m f e) (hi : i ∈ m.instrs f)
    (hk : (D.base names.tracked.get).keeps m i = true) {v : Operand} (hv : v ∈ m.operands i) :
    (∃ l, v = .instr l) ∧ Resolved m f names ((D.base names.tracked.get).subst m v) ∨
      (∀ l, v ≠ .instr l) ∧ (D.base names.tracked.get).subst m v = v := by
  cases v with
  | instr l =>
    refine .inl ⟨⟨l,rfl⟩,?_⟩
    simp only [Plan.subst]
    split
    · rename_i hl
      obtain ⟨a,ha⟩ := Option.isSome_iff_exists.mp hl
      obtain ⟨_,ho,hp⟩ := (Plan.loadOf?_eq_some ..).mp ha
      have hsome := (h.complete.renamed.value l).mpr
        ⟨hl,h.promotable.linked a hp l (mem_operands_of_operand ho (by simp))⟩
      obtain ⟨w,hw⟩ := Option.isSome_iff_exists.mp hsome
      simp only [Draft.base,Draft.plan,hw]
      exact h.complete.renamed.resolved l w hw
    · rename_i hl
      refine ⟨.inl ⟨l,rfl⟩,fun x hx => ?_⟩
      obtain rfl := Operand.instr.inj hx
      obtain ⟨c,hc,hcf⟩ := hF.home i hi l hv
      have hlt : l < m.instrTable.size := lt_size_of_ne fun hd => by
        rw [hd] at hc
        cases hc
      exact ⟨h.unmentioned hk hv,Option.not_isSome_iff_eq_none.mp hl,
        fun _ => ⟨hF.valued i hi l hv,c,hc,hcf⟩,fun hle => absurd hlt (Nat.not_lt.mpr hle)⟩
  | _ => exact .inr ⟨fun _ => by simp,rfl⟩

theorem keeps_of_op (ha : (m.instr i).op ≠ .alloca)
    (hl : (m.instr i).op ≠ .load) (hs : (m.instr i).op ≠ .store) :
    (D.base names.tracked.get).keeps m i = true := by
  refine (Plan.keeps_iff ..).mpr ⟨?_,if_neg hl,if_neg hs⟩
  by_contra ht
  exact ha (h.promotable.alloca i (eq_true_of_ne_false ht)).2

theorem mem_instrs_iff :
    i ∈ n.instrs f ↔ (∃ b ∈ (m.func f).layout, i ∈ (m.block b).instrs ∧
      (D.base names.tracked.get).keeps m i = true) ∨
      ∃ b ∈ (m.func f).layout, i ∈ D.newPhis b := by
  rw [Module.mem_instrs_iff,h.layout_eq]
  constructor
  · rintro ⟨b,hb,hi⟩
    rw [h.instrs_eq hb] at hi
    rcases mem_append.mp hi with hi | hi
    · rcases mem_append.mp hi with hi | hi
      · exact .inl ⟨b,hb,phis_subset m b hi,keeps_phi D h.promotable (op_of_mem_phis hi)⟩
      · exact .inr ⟨b,hb,hi⟩
    · obtain ⟨hi,hk⟩ := mem_filter.mp hi
      exact .inl ⟨b,hb,body_subset m b hi,hk⟩
  · rintro (⟨b,hb,hi,hk⟩ | ⟨b,hb,hi⟩)
    · refine ⟨b,hb,?_⟩
      rw [h.instrs_eq hb]
      rw [instrs_eq_phis_append] at hi
      rcases mem_append.mp hi with hi | hi
      · exact mem_append_left _ (mem_append_left _ hi)
      · exact mem_append_right _ (mem_filter.mpr ⟨hi,hk⟩)
    · refine ⟨b,hb,?_⟩
      rw [h.instrs_eq hb]
      exact mem_append_left _ (mem_append_right _ hi)

theorem operands_newPhi (hi : i ∈ D.newPhis b) :
    n.operands i = arms (D.feeds i) := (h.drafted.fits.newPhi b i hi).2.2.2.2

section
variable (hF : Formed m f e)
include hF

theorem operands_kept (hb : b ∈ (m.func f).layout)
    (hi : i ∈ (m.block b).instrs) (hk : (D.base names.tracked.get).keeps m i = true) :
    n.operands i = (m.operands i).map ((D.base names.tracked.get).subst m) := by
  have hc := congrArg Instr.operands (h.operands_eq (hF.lt_size hb hi) hk)
  exact hc

/-- The pairs of a phi: an old one has those it had, with other values. -/
theorem pairs_of_phi (hb : b ∈ (m.func f).layout) (hi : i ∈ n.phis b) :
    (i ∈ D.newPhis b ∧ n.operands i = arms (D.feeds i)) ∨
    i ∈ m.phis b ∧ ∀ ps, m.operands i = arms ps →
      n.operands i = arms (ps.map fun x => ((D.base names.tracked.get).subst m x.1,x.2)) := by
  rw [h.phis_eq hF hb] at hi
  rcases mem_append.mp hi with hi | hi
  · refine .inr ⟨hi,fun ps hps => ?_⟩
    rw [h.operands_kept hF hb (phis_subset m b hi) (keeps_phi D h.promotable (op_of_mem_phis hi)),
      hps,map_arms fun _ => rfl]
  · exact .inl ⟨hi,h.operands_newPhi hi⟩

/-- An operand afterwards: it stands for one of before, or was fed to a phi. -/
theorem resolved_operand (hi : i ∈ n.instrs f)
    (hj : .instr j ∈ n.operands i) : Resolved m f names (.instr j) := by
  rcases h.mem_instrs_iff.mp hi with ⟨b,hb,hib,hk⟩ | ⟨b,hb,hib⟩
  · rw [h.operands_kept hF hb hib hk,mem_map] at hj
    obtain ⟨v,hv,hvj⟩ := hj
    rcases h.resolved_subst hF (Module.mem_instrs_iff.mpr ⟨b,hb,hib⟩) hk hv
      with ⟨_,hres⟩ | ⟨hne,hid⟩
    · rwa [hvj] at hres
    · exact absurd (hid.symm.trans hvj) (hne j)
  · rw [h.operands_newPhi hib,mem_flatMap] at hj
    obtain ⟨x,hx,hxj⟩ := hj
    simp only [mem_cons,reduceCtorEq,not_mem_nil,or_false] at hxj
    have := h.complete.renamed.fed i x hx
    rwa [← hxj] at this

theorem home_of_resolved
    (hj : Resolved m f names (.instr j)) :
    (n.instr j).type.isVoid = false ∧ ∃ b, (n.instr j).parent = some b ∧ b.func = f := by
  obtain ⟨_,_,h3,h4⟩ := hj.instr j rfl
  by_cases hlt : j < m.instrTable.size
  · obtain ⟨hval,b,hb,hbf⟩ := h3 hlt
    have hc := h.operands_eq hlt (h.keeps_of_resolved hF hj hlt)
    refine ⟨?_,b,?_,hbf⟩
    · rw [(h.op_eq hlt).2.1]
      exact hval
    · have := congrArg Instr.parent hc
      exact this.trans hb
  · obtain ⟨a,ha⟩ := Option.isSome_iff_exists.mp (h4 (Nat.not_lt.mp hlt))
    obtain ⟨hla,b,hb⟩ := (h.complete.named.localOf j a).mp ha
    obtain ⟨_,_,hpar,htype,_⟩ := h.drafted.fits.newPhi b j hb
    refine ⟨?_,b,hpar,?_⟩
    · have ht : (n.instr j).type = Promotion.objectOf m (D.localOf j) := htype
      rw [ht]
      exact Ty.isVoid_of_isScalar (h.promotable.scalar _ (h.owner _ b ⟨j,hb,rfl⟩))
    · obtain ⟨c,hc⟩ := h.home b (ne_nil_of_mem hb)
      exact hF.owned b (hF.flowGraph.of_mem_frontier hc).1

theorem split_instrs (hb : b ∈ (m.func f).layout) (hs : (n.block b).instrs = pre ++ i :: post)
    (hi : i ∉ n.phis b) :
    ∃ mpre mpost, m.body b = mpre ++ i :: mpost ∧ (D.base names.tracked.get).keeps m i = true ∧
      pre = m.phis b ++ D.newPhis b ++ mpre.filter ((D.base names.tracked.get).keeps m) := by
  rw [h.phis_eq hF hb] at hi
  rw [h.instrs_eq hb] at hs
  have hsplit : ∃ pre', pre = m.phis b ++ D.newPhis b ++ pre' ∧
      (m.body b).filter ((D.base names.tracked.get).keeps m) = pre' ++ i :: post := by
    rcases append_eq_append_iff.mp hs with ⟨as,hpre,hbody⟩ | ⟨as,hpre,hbody⟩
    · exact ⟨as,hpre,hbody⟩
    · cases as with
      | nil =>
        rw [append_nil] at hpre
        exact ⟨[],by rw [hpre,append_nil],hbody.symm⟩
      | cons y as =>
        rw [cons_append,cons.injEq] at hbody
        exact absurd (hpre ▸ mem_append_right pre (hbody.1 ▸ mem_cons_self)) hi
  obtain ⟨pre',hpre,hfil⟩ := hsplit
  obtain ⟨l1,l2,hl,h1,h2⟩ := filter_eq_append_iff.mp hfil
  obtain ⟨l3,l4,hl2,h3,hk,_⟩ := filter_eq_cons_iff.mp h2
  refine ⟨l1 ++ l3,l4,by rw [hl,hl2,append_assoc],hk,?_⟩
  rw [hpre,filter_append,h1,filter_eq_nil_iff.mpr h3,append_nil]

theorem loadsReached_all (hb : m.Reaches e b) (d : BlockId)
    (hd : m.Dominates e d b) : LoadsReached m e names.tracked.get D d (m.body d) :=
  (h.reached hF (hd.reaches hb)).2.1

theorem dominated (hb : m.Reaches e b) (hs : (n.block b).instrs = pre ++ i :: post)
    (hi : i ∉ n.phis b) (hj : .instr j ∈ n.operands i) :
    Available n (fun c => (n.block c).instrs) e b pre j := by
  have hbl := hF.mem_layout hb
  obtain ⟨mpre,mpost,hbody,hk,hpre⟩ := h.split_instrs hF hbl hs hi
  have hib : i ∈ (m.block b).instrs := body_subset m b (hbody ▸ by simp)
  have hres := h.resolved_operand hF (h.mem_instrs_iff.mpr (.inl ⟨b,hbl,hib,hk⟩)) hj
  rw [h.operands_kept hF hbl hib hk,mem_map] at hj
  obtain ⟨v,hv,hvj⟩ := hj
  have hloads : LoadsReached m e names.tracked.get D b mpre := by
    intro p1 l p2 hp
    refine h.loadsReached_all hF hb b (.refl m e b) p1 l (p2 ++ i :: mpost) ?_
    rw [hbody,hp,append_assoc]
    rfl
  have hr := reached_subst hb (fun d _ hd => h.loadsReached_all hF hb d hd) hloads
    (fun l hl => available_operand hF hb hbody (hl ▸ hv)) hvj
  rw [hpre]
  exact h.available hF hres hb (hbody ▸ subset_append_left _ _) hr

/-- What flows into a phi is there at the end of the block it comes from. -/
theorem phi_dominated (hb : m.Reaches e b)
    (hi : i ∈ n.phis b) {q : BlockId} (hq : m.Reaches e q)
    (hj : (Operand.instr j,Operand.block q) ∈ n.incoming i) :
    Available n (fun c => (n.block c).instrs) e q (n.block q).instrs j := by
  have hbl := hF.mem_layout hb
  have hql := hF.mem_layout hq
  have hin : i ∈ n.instrs f := Module.mem_instrs_iff.mpr ⟨b,by rwa [h.layout_eq],phis_subset n b hi⟩
  rw [h.instrs_eq hql]
  rcases h.pairs_of_phi hF hbl hi with ⟨hi,ho⟩ | ⟨hi,ho⟩
  · rw [incoming,ho,pairs_flatMap,mem_map] at hj
    obtain ⟨⟨v,q'⟩,hx,hxj⟩ := hj
    obtain ⟨rfl,rfl⟩ := hxj
    have hres := h.complete.renamed.fed i _ hx
    refine h.available hF hres hq (List.Subset.refl _) ?_
    rcases (h.complete.fedBy i _ hx).2 with hf | ⟨_,c,t,hv,_⟩
    · exact (h.reached hF hq).2.2 _ _ hf
    · cases hv
  · obtain ⟨ps,hps⟩ := hF.pairs b hbl i hi
    have ho' := ho ps hps
    rw [incoming,ho',pairs_flatMap,map_map,mem_map] at hj
    obtain ⟨⟨v,q'⟩,hx,hxj⟩ := hj
    simp only [Function.comp_apply,Prod.mk.injEq,Operand.block.injEq] at hxj
    obtain ⟨hvj,rfl⟩ := hxj
    have hres : Resolved m f names (.instr j) := by
      refine h.resolved_operand hF hin ?_
      rw [ho',mem_flatMap]
      exact ⟨(.instr j,q'),mem_map.mpr ⟨(v,q'),hx,by rw [← hvj]⟩,by simp⟩
    refine h.available hF hres hq (List.Subset.refl _) ?_
    refine reached_subst hq (fun d _ hd => h.loadsReached_all hF hq d hd)
      (h.loadsReached_all hF hq q' (.refl m e q')) (fun l hl => ?_) hvj
    rw [← instrs_eq_phis_append]
    refine hF.phi_dominated b hb i hi q' hq l ?_
    rw [incoming,hps,pairs_flatMap,mem_map]
    exact ⟨(v,q'),hx,by rw [hl]⟩

theorem parent_eq (hb : b ∈ (m.func f).layout)
    (hi : i ∈ (n.block b).instrs) : (n.instr i).parent = some b := by
  rw [h.instrs_eq hb] at hi
  have hkept : i ∈ (m.block b).instrs → (D.base names.tracked.get).keeps m i = true →
      (n.instr i).parent = some b := by
    intro hi hk
    have := congrArg Instr.parent (h.operands_eq (hF.lt_size hb hi) hk)
    exact this.trans (hF.parent b hb i hi)
  rcases mem_append.mp hi with hi | hi
  · rcases mem_append.mp hi with hi | hi
    · exact hkept (phis_subset m b hi) (keeps_phi D h.promotable (op_of_mem_phis hi))
    · exact (h.drafted.fits.newPhi b i hi).2.2.1
  · obtain ⟨hi,hk⟩ := mem_filter.mp hi
    exact hkept (body_subset m b hi) hk

theorem op_of_mem (hi : i ∈ n.instrs f) :
    ((∃ b ∈ (m.func f).layout, i ∈ (m.block b).instrs) ∧ i ∈ m.instrs f ∧
      (n.instr i).op = (m.instr i).op ∧
      (n.instr i).type = (m.instr i).type ∧
      n.operands i = (m.operands i).map ((D.base names.tracked.get).subst m)) ∨
      (n.instr i).op = .phi := by
  rcases h.mem_instrs_iff.mp hi with ⟨b,hb,hib,hk⟩ | ⟨b,_,hib⟩
  · obtain ⟨h1,h2,_⟩ := h.op_eq (hF.lt_size hb hib)
    exact .inl ⟨⟨b,hb,hib⟩,Module.mem_instrs_iff.mpr ⟨b,hb,hib⟩,h1,h2,h.operands_kept hF hb hib hk⟩
  · exact .inr (h.drafted.fits.newPhi b i hib).2.1

theorem formed : Formed n f e := by
  have hmem : ∀ b, b ∈ (n.func f).layout ↔ b ∈ (m.func f).layout := fun b => by rw [h.layout_eq]
  refine ⟨?_,?_,?_,?_,?_,?_,?_,?_,?_,?_,?_,?_,?_,?_,?_⟩
  · rw [h.layout_eq]
    exact hF.entry
  · rw [h.layout_eq]
    exact hF.owned
  · rw [h.layout_eq]
    exact hF.layout_nodup
  · have hsub : ∀ bs : List BlockId, bs ⊆ (m.func f).layout →
        (bs.flatMap fun b => (n.block b).instrs).Sublist (bs.flatMap (D.line m)) := by
      intro bs
      induction bs with
      | nil => exact fun _ => List.Sublist.refl _
      | cons b bs ih =>
        intro hbs
        rw [flatMap_cons,flatMap_cons,h.instrs_eq (hbs mem_cons_self)]
        exact ((List.Sublist.refl _).append filter_sublist).append
          (ih fun c hc => hbs (mem_cons_of_mem _ hc))
    have hnd := h.drafted.nodup_lines hF h.complete.named.nodup
    rw [instrs,h.layout_eq]
    exact hnd.sublist (hsub _ (List.Subset.refl _))
  · intro b hb i hi
    exact h.parent_eq hF ((hmem b).mp hb) hi
  · intro b hb i hi
    have hb := (hmem b).mp hb
    rw [h.body_eq hF hb] at hi
    have hi := (mem_filter.mp hi).1
    rw [(h.op_eq (hF.lt_size hb (body_subset m b hi))).1]
    exact hF.not_phi b hb i hi
  · intro b hb
    have hb := (hmem b).mp hb
    obtain ⟨is,t,hbody,ht,his⟩ := hF.terminated b hb
    have hop : ∀ i ∈ m.body b, (n.instr i).op = (m.instr i).op :=
      fun i hi => (h.op_eq (hF.lt_size hb (body_subset m b hi))).1
    have hkt : (D.base names.tracked.get).keeps m t = true := by
      apply h.keeps_of_op <;> (intro hop; rw [hop] at ht; cases ht)
    refine ⟨is.filter ((D.base names.tracked.get).keeps m),t,?_,?_,?_⟩
    · rw [h.body_eq hF hb,hbody,filter_append,filter_cons_of_pos hkt,filter_nil]
    · rw [hop t (hbody ▸ by simp)]
      exact ht
    · simp_all
  · intro b hb c hc
    rw [h.layout_eq] at hb ⊢
    rw [(h.edges_eq b).1] at hc
    exact hF.closed b hb c hc
  · intro b hb c hc
    rw [h.layout_eq] at hb hc
    rw [(h.edges_eq b).1,(h.edges_eq c).2]
    exact hF.mirrored b hb c hc
  · intro b hb p hp
    have hb := (hmem b).mp hb
    rcases h.pairs_of_phi hF hb hp with ⟨hp,ho⟩ | ⟨hp,ho⟩
    · exact ⟨D.feeds p,ho⟩
    · obtain ⟨ps,hps⟩ := hF.pairs b hb p hp
      exact ⟨_,ho ps hps⟩
  · intro i hi j hj
    exact (h.home_of_resolved hF (h.resolved_operand hF hi hj)).1
  · intro i hi j hj
    exact (h.home_of_resolved hF (h.resolved_operand hF hi hj)).2
  · intro i hi hop
    rcases h.op_of_mem hF hi with ⟨_,him,hop',ht,_⟩ | hphi
    · rw [ht]
      rw [hop'] at hop
      exact hF.store_void i him hop
    · rw [hop] at hphi
      cases hphi
  · intro b hb pre i post hs hi j hj
    rw [h.reaches_eq] at hb
    exact h.dominated hF hb hs hi hj
  · intro b hb p hp q hq j hj
    rw [h.reaches_eq] at hb hq
    exact h.phi_dominated hF hb hp hq hj

end

theorem runnable (hF : Runnable m f e) : Runnable n f e where
  toFormed := h.formed hF.toFormed
  branch := by
    rw [h.layout_eq]
    intro b hb i hi hop
    rw [h.body_eq hF.toFormed hb] at hi
    obtain ⟨hi,hk⟩ := mem_filter.mp hi
    have hin := body_subset m b hi
    rw [(h.op_eq (hF.lt_size hb hin)).1] at hop
    rw [h.operands_kept hF.toFormed hb hin hk,(h.edges_eq b).1]
    rcases hF.branch b hb i hi hop with ⟨c,hc,ho⟩ | ⟨v,c,hc,d,hd,ho⟩
    · exact .inl ⟨c,hc,by rw [ho]; rfl⟩
    · exact .inr ⟨_,c,hc,d,hd,by rw [ho]; rfl⟩
  call := by
    intro i hi hop
    rcases h.op_of_mem hF.toFormed hi with ⟨_,him,hop',_,ho⟩ | hphi
    · rw [hop'] at hop
      obtain ⟨k,vs,hvs,hk⟩ := hF.call i him hop
      refine ⟨k,vs.map ((D.base names.tracked.get).subst m),?_,?_⟩
      · rw [ho,hvs]
        rfl
      · have : n.funcs = m.funcs := h.drafted.fits.funcs
        rwa [this]
    · rw [hop] at hphi
      cases hphi

/-- A user afterwards was a user before, or uses what stands for another value, or is a new phi. -/
theorem user_cases {u : InstrId} (hu : .instr i ∈ n.operands u) :
    (D.base names.tracked.get).keeps m u = true ∧ u < m.instrTable.size ∧
    (.instr i ∈ m.operands u ∧ D.value i = none ∨
      ∃ l, .instr l ∈ m.operands u ∧ D.value l = some (.instr i)) ∨
    (∃ b, u ∈ D.newPhis b) ∧ ∃ x ∈ D.feeds u, x.1 = .instr i := by
  by_cases hsz : u < m.instrTable.size
  · left
    cases hg : g u with
    | true =>
      have ho := congrArg Instr.operands (h.drafted.fits.gone u hg).2
      rw [show n.operands u = [] from ho] at hu
      cases hu
    | false =>
      have hk : (D.base names.tracked.get).keeps m u = true := by
        by_contra hk
        have := (h.gone u).mpr (eq_false_of_ne_true hk)
        rw [hg] at this
        cases this
      have ho := congrArg Instr.operands (h.drafted.fits.kept u hsz hg)
      rw [show n.operands u = (m.operands u).map (Draft.operand { D with gone := g })
        from ho,mem_map] at hu
      obtain ⟨v,hv,hvi⟩ := hu
      refine ⟨hk,hsz,?_⟩
      cases v with
      | instr l =>
        cases hl : D.value l with
        | none =>
          simp only [Draft.operand,hl] at hvi
          obtain rfl := Operand.instr.inj hvi
          exact .inl ⟨hv,hl⟩
        | some w =>
          simp only [Draft.operand,hl] at hvi
          exact .inr ⟨l,hv,hvi ▸ hl⟩
      | _ => simp [Draft.operand] at hvi
  · right
    have hsz := Nat.not_lt.mp hsz
    by_cases hp : ∃ b, u ∈ D.newPhis b
    · refine ⟨hp,?_⟩
      obtain ⟨b,hb⟩ := hp
      rw [h.operands_newPhi hb,mem_flatMap] at hu
      obtain ⟨x,hx,hxi⟩ := hu
      simp only [mem_cons,reduceCtorEq,not_mem_nil,or_false] at hxi
      exact ⟨x,hx,hxi.symm⟩
    · have ho := h.drafted.fits.beyond u hsz fun b hb => hp ⟨b,hb⟩
      rw [operands_eq_code,ho] at hu
      cases hu

theorem layout_of_newPhi (hF : Formed m f e) (hi : i ∈ D.newPhis b) :
    b ∈ (m.func f).layout := by
  obtain ⟨c,hc⟩ := h.home b (ne_nil_of_mem hi)
  exact (hF.flowGraph.of_mem_frontier hc).1

theorem mem_instrs_of_value {l : InstrId} (hl : (D.value l).isSome = true) :
    l ∈ m.instrs f := by
  obtain ⟨b,hb,hlb⟩ := ((h.complete.renamed.value l).mp hl).2
  exact Module.mem_instrs_iff.mpr ⟨b,hb,body_subset m b hlb⟩

theorem ready (hR : Ready m f e) : Ready n f e := by
  have hF := hR.formed
  refine ⟨h.formed hF,h.drafted.mirror,fun i hi u hu => ?_⟩
  have hu := (h.drafted.mirror.mem_uses_iff (by simp) u).mp hu
  have hkeep : u ∈ m.instrs f → (D.base names.tracked.get).keeps m u = true → u ∈ n.instrs f := by
    intro hum hk
    obtain ⟨b,hb,hub⟩ := Module.mem_instrs_iff.mp hum
    exact h.mem_instrs_iff.mpr (.inl ⟨b,hb,hub,hk⟩)
  rcases h.user_cases hu with ⟨hk,_,⟨hiu,_⟩ | ⟨l,hlu,hl⟩⟩ | ⟨⟨b,hb⟩,_⟩
  · refine hkeep (hR.linked i ?_ u ((hR.mirror.mem_uses_iff (by simp) u).mpr hiu)) hk
    rcases h.mem_instrs_iff.mp hi with ⟨b,hb,hib,_⟩ | ⟨b,_,hib⟩
    · exact Module.mem_instrs_iff.mpr ⟨b,hb,hib⟩
    · exact absurd (hR.mirror.instr_lt hiu) (Nat.not_lt.mpr (h.drafted.fits.newPhi b i hib).1)
  · refine hkeep (hR.linked l (h.mem_instrs_of_value (by simp [hl])) u ?_) hk
    exact (hR.mirror.mem_uses_iff (by simp) u).mpr hlu
  · exact h.mem_instrs_iff.mpr (.inr ⟨b,h.layout_of_newPhi hF hb,hb⟩)

theorem rooted (hR : Rooted m f e) : Rooted n f e := by
  have hF := hR.runnable.toFormed
  refine ⟨h.runnable hR.runnable,h.drafted.mirror,?_,?_,(h.ready hR.ready).linked⟩
  · rw [(h.edges_eq e).2]
    exact hR.entry_preds
  · intro i hi hop
    rcases h.op_of_mem hF hi with ⟨⟨b,hb,hib⟩,him,hop',_,_⟩ | hphi
    · rw [hop'] at hop
      have hie := hR.allocas i him hop
      obtain ⟨c,hc,hic⟩ := Module.mem_instrs_iff.mp hi
      rw [h.layout_eq] at hc
      have hpc := h.parent_eq hF hc hic
      have hce : c = e := by
        rcases h.mem_instrs_iff.mp hi with ⟨_,_,_,hk⟩ | ⟨b',_,hib'⟩
        · have hp := congrArg Instr.parent (h.operands_eq (hF.lt_size hb hib) hk)
          have hp : (n.instr i).parent = (m.instr i).parent := hp
          rw [hp,hF.parent e hF.entry_mem i hie,Option.some.injEq] at hpc
          exact hpc.symm
        · exact absurd (hF.lt_size hb hib) (Nat.not_lt.mpr (h.drafted.fits.newPhi b' i hib').1)
      exact hce ▸ hic
    · rw [hop] at hphi
      cases hphi

end Finished
end CMinusF
