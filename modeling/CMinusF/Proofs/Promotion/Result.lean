import CMinusF.Proofs.Promotion.Finish

/-! Promoting the locals of a function does what a plan says: the phases of the pass put together.
-/
namespace CMinusF
open CMinusF.Module List
variable {m : Module} {f : FuncId} {e : BlockId} {promoted : InstrId → Bool} {D : Draft}
  {x i : InstrId} {pre : List InstrId}

theorem Ty.isVoid_of_isScalar {t : Ty} (h : t.isScalar = true) : t.isVoid = false := by
  simp only [isScalar,isInteger,isFloat,isPointer,isVoid,Bool.or_eq_true,beq_iff_eq,
    beq_eq_false_iff_ne] at h ⊢
  omega

/-- What the pass expects of a function beyond its shape. -/
structure Ready (m : Module) (f : FuncId) (e : BlockId) : Prop where
  formed : Formed m f e
  mirror : m.Mirror
  linked : ∀ i ∈ m.instrs f, ∀ u ∈ m.uses (.instr i), u ∈ m.instrs f

/-- What it takes for the pass to keep the meaning: the function can be run, and nothing jumps to
its entry, where its allocas are. -/
structure Rooted (m : Module) (f : FuncId) (e : BlockId) : Prop where
  runnable : Runnable m f e
  mirror : m.Mirror
  entry_preds : m.preds e = []
  allocas : ∀ i ∈ m.instrs f, (m.instr i).op = .alloca → i ∈ (m.block e).instrs
  linked : ∀ i ∈ m.instrs f, ∀ u ∈ m.uses (.instr i), u ∈ m.instrs f

theorem Rooted.ready (h : Rooted m f e) : Ready m f e :=
  ⟨h.runnable.toFormed,h.mirror,h.linked⟩

/-- Everything has been renamed into `r`, and `n` is what is left when the useless is taken away. -/
structure Finished (m n : Module) (f : FuncId) (e : BlockId) (names : Promotion.Names) (D : Draft)
    (start finish : BlockId → InstrId → Option Operand) (r : Promotion.Renaming)
    (g : InstrId → Bool) : Prop where
  promotable : Promotable m f names.tracked.get
  complete : Complete m f e names D start finish r
  drafted : Drafted m n f { D with gone := g }
  gone : ∀ i, g i = true ↔ (D.base names.tracked.get).keeps m i = false
  literal : n.code.literal = r.module.code.literal
  joined : ∀ a, names.tracked.get a = true → Placed.Joined m f e D a
  owner : ∀ a b, D.HasPhi a b → names.tracked.get a = true
  home : ∀ b, D.newPhis b ≠ [] → ∃ c, b ∈ (m.dominators f).frontier c

namespace Ready
open Promotion

theorem promotable (h : Ready m f e)
    (hp : ∀ a, promoted a = true ↔ a ∈ Promotion.candidates m f) : Promotable m f promoted := by
  have hused : ∀ a, promoted a = true → ∀ u, .instr a ∈ m.operands u → u ∈ (m.instr a).uses ∧
      a ∈ m.instrs f := by
    intro a ha u hu
    exact ⟨(h.mirror.mem_uses_iff (v := .instr a) (by simp) u).mpr hu,
      (mem_candidates.mp ((hp a).mp ha)).1⟩
  have hcand : ∀ a, promoted a = true → a ∈ m.instrs f ∧ _ := fun a ha =>
    ⟨(mem_candidates.mp ((hp a).mp ha)).1,promotable_iff.mp (mem_candidates.mp ((hp a).mp ha)).2⟩
  refine ⟨?_,?_,?_,?_⟩
  · intro a ha
    obtain ⟨hi,hop,_⟩ := hcand a ha
    obtain ⟨b,hb,hab⟩ := mem_instrs_iff.mp hi
    exact ⟨⟨b,hb,mem_body_of_not_phi hab (by simp [hop])⟩,hop⟩
  · intro a ha
    have hs := (hcand a ha).2.2.1
    rw [Promotion.objectOf]
    cases ho : (m.instr a).object with
    | none =>
      rw [ho] at hs
      cases hs
    | some t =>
      rw [ho] at hs
      exact hs
  · intro a ha u hu
    obtain ⟨hmem,hi⟩ := hused a ha u hu
    obtain ⟨b,hb,hub⟩ := mem_instrs_iff.mp (h.linked a hi u hmem)
    refine ⟨b,hb,mem_body_of_not_phi hub ?_⟩
    rcases (hcand a ha).2.2.2 u hmem with ⟨hop,_⟩ | ⟨hop,_⟩ <;> simp [hop]
  · intro a ha u hu
    exact (hcand a ha).2.2.2 u (hused a ha u hu).1

theorem walked_placed {p : Promotion.Placement} (names : Promotion.Names) (h : Placed m f p D)
    (hn : names.localOf = p.localOf) (start finish : BlockId → InstrId → Option Operand) :
    Walked m f e names (fun _ => False) D start finish ⟨p.module,[]⟩ where
  renamed :=
    ⟨h.drafted,h.gone,by simp [h.value],by simp [h.value],by simp [h.feeds],by simp⟩
  named := ⟨hn ▸ h.localOf,h.distinct,h.nodup⟩
  reaches _ hb := hb.elim
  up _ hb := hb.elim
  starts _ hb := hb.elim
  ends _ hb := hb.elim
  fed _ hb := hb.elim
  settled _ hb := hb.elim
  fedAll _ hb := hb.elim
  fedBy p x hx := by
    rw [h.feeds] at hx
    cases hx
  fedOnce p c := by simp [h.feeds]

theorem finished (h : Ready m f e) (hne : Promotion.candidates m f ≠ []) :
    ∃ names D start finish r g,
    Finished m (Promotion.run m f (m.dominators f)).module f e names D start finish r g ∧
    (∀ a, names.tracked.get a = true ↔ a ∈ Promotion.candidates m f) ∧
    (Promotion.run m f (m.dominators f)).failure = none := by
  have hF := h.formed
  have hG := hF.flowGraph
  have hdecl : ((m.func f).isDeclaration || (Promotion.candidates m f).isEmpty) = false := by
    have hlayout : (m.func f).layout ≠ [] := ne_nil_of_mem hF.entry_mem
    simp [Func.isDeclaration,hlayout,hne]
  have hcand : ∀ a ∈ Promotion.candidates m f, ∃ b ∈ (m.func f).layout, a ∈ m.body b ∧
      (m.instr a).op ≠ .br := by
    intro a ha
    obtain ⟨hi,hp⟩ := mem_candidates.mp ha
    obtain ⟨b,hb,hab⟩ := mem_instrs_iff.mp hi
    have hop := (promotable_iff.mp hp).1
    exact ⟨b,hb,mem_body_of_not_phi hab (by simp [hop]),by simp [hop]⟩
  -- phis
  obtain ⟨D0,hplaced,hjoin,hhas⟩ := placement_spec h.mirror hF.shaped hF.nodup
  generalize hpl : placement m f = placed at hplaced
  rw [placement] at hpl
  generalize htr : (Promotion.candidates m f).foldl (fun t a => t.set a true)
    (.empty : Table Bool) = tracked
  have htracked : ∀ a, tracked.get a = true ↔ a ∈ Promotion.candidates m f := by
    intro a
    rw [← htr,get_tracked]
    simp
  have hP := h.promotable htracked
  -- the walk
  have hentry : (m.func f).entryBlock?.getD default = e := by
    rw [Func.entryBlock?,h.formed.entry]
    rfl
  obtain ⟨D1,start,finish,hg0,hw,_⟩ := (walked_placed ⟨tracked,placed.localOf⟩ hplaced rfl
    (fun _ _ => none) (fun _ _ => none)).renameBlock hF hP (m.blockCount + 1) .empty (.refl m e)
    (fun _ _ => not_false) (fun c hc hce => absurd (hG.isDominatorTree.tree.above_entry hc) hce)
    (fun x v hx => by rw [Table.get_empty] at hx; cases hx) (by
      funext x
      rw [worthAbove,if_pos rfl]
      rfl) hG.entry_number_lt
  have hreach : (fun x => False ∨ Dominance.Above (m.dominators f).idom e x) = m.Reaches e := by
    funext x
    rw [false_or,hG.above_entry_iff]
  rw [hreach] at hw
  obtain ⟨D2,hgrow,hc⟩ := hw.complete hF hP
  generalize hr : foldl _ (Promotion.renameBlock _ _ _ _ _ e) _ = r at hc
  have hR := hc.renamed
  -- what is useless
  have hdead : ∀ i ∈ r.dead, ∃ b ∈ (m.func f).layout, i ∈ m.body b ∧ (m.instr i).op ≠ .br := by
    intro i hi
    obtain ⟨⟨b,hb,hib⟩,hls⟩ := (hR.dead i).mp hi
    refine ⟨b,hb,hib,?_⟩
    rcases hls with hl | hl
    · obtain ⟨a,ha⟩ := Option.isSome_iff_exists.mp hl
      rw [((Plan.loadOf?_eq_some ..).mp ha).1]
      simp
    · obtain ⟨a,ha⟩ := Option.isSome_iff_exists.mp hl
      rw [((Plan.storeOf?_eq_some ..).mp ha).1]
      simp
  obtain ⟨g1,hd1,hg1,hl1⟩ := hR.drafted.foldl_erase hF r.dead hc.named.nodup hdead
  have hfree : ∀ a ∈ Promotion.candidates m f, Draft.Free m { D2 with gone := g1 } a := by
    intro a ha
    have hta := (htracked a).mpr ha
    refine ⟨fun u hu => (hg1 u).mpr (.inr ((hR.dead u).mpr ⟨hP.linked a hta u hu,?_⟩)),?_,?_⟩
    · rcases hP.used a hta u hu with ⟨hop,ho⟩ | ⟨hop,ho,_⟩
      · exact .inl (Option.isSome_iff_exists.mpr ⟨a,(Plan.loadOf?_eq_some ..).mpr ⟨hop,ho,hta⟩⟩)
      · exact .inr (Option.isSome_iff_exists.mpr ⟨a,(Plan.storeOf?_eq_some ..).mpr ⟨hop,ho,hta⟩⟩)
    · intro l hl
      have := ((hR.resolved l _ hl).instr a rfl).1
      rw [hta] at this
      cases this
    · intro p x hx hxa
      have := ((hR.fed p x hx).instr a hxa).1
      rw [hta] at this
      cases this
  have herase := hd1.eraseLocals hF _ hc.named.nodup hcand hfree
  obtain ⟨g2,hd2,hg2,hl2⟩ := hd1.foldl_erase hF _ hc.named.nodup hcand
  have hrun : Promotion.run m f (m.dominators f) =
    ⟨(Promotion.candidates m f).foldl Module.erase (r.dead.foldl Module.erase r.module),
      ⟨(Promotion.candidates m f).length,placed.count⟩,none⟩ := by
    unfold Promotion.run
    simp only [hdecl,hpl,htr,hentry,hr,herase,Bool.false_eq_true,↓reduceIte]
  have hsame : ∀ a b, D2.HasPhi a b ↔ D0.HasPhi a b := by
    intro a b
    rw [Draft.HasPhi,hgrow.newPhis,hg0.newPhis,hgrow.localOf,hg0.localOf]
    rfl
  rw [hrun]
  refine ⟨⟨tracked,placed.localOf⟩,D2,start,finish,r,g2,⟨hP,hc,hd2,?_,hl2.trans hl1,?_,?_,?_⟩,
    htracked,rfl⟩
  · intro i
    rw [hg2,hg1,hR.gone,hR.dead,← Bool.not_eq_true,Plan.keeps_iff,← htracked]
    simp only [Bool.false_eq_true,false_or]
    constructor
    · rintro (⟨_,hl | hs⟩ | ht) ⟨h1,h2,h3⟩
      · rw [h2] at hl
        cases hl
      · rw [h3] at hs
        cases hs
      · rw [show tracked.get i = false from h1] at ht
        cases ht
    · intro hk
      by_cases ht : tracked.get i = true
      · exact .inr ht
      · refine .inl ?_
        rcases (D2.base tracked.get).keeps_or m i with hk' | hp | ⟨a,ha⟩ | ⟨a,ha⟩
        · exact absurd ((Plan.keeps_iff ..).mp hk') hk
        · exact absurd hp ht
        · obtain ⟨_,ho,hta⟩ := (Plan.loadOf?_eq_some ..).mp ha
          exact ⟨hP.linked a hta i (mem_operands_of_operand ho (by simp)),.inl (by rw [ha]; rfl)⟩
        · obtain ⟨_,ho,hta⟩ := (Plan.storeOf?_eq_some ..).mp ha
          exact ⟨hP.linked a hta i (mem_operands_of_operand ho (by simp)),.inr (by rw [ha]; rfl)⟩
  · intro a ha
    have hset : {b | D2.HasPhi a b} = {b | D0.HasPhi a b} := Set.ext (hsame a)
    rw [Placed.Joined,hset]
    exact hjoin a ((htracked a).mp ha)
  · intro a b hab
    rw [hsame] at hab
    by_contra ht
    exact hhas a (fun hm => ht ((htracked a).mpr hm)) b hab
  · intro b hb
    rw [hgrow.newPhis,hg0.newPhis] at hb
    exact hplaced.home b hb

end Ready

namespace Finished
open Dominance
variable {n : Module} {b c : BlockId} {names : Promotion.Names}
  {start finish : BlockId → InstrId → Option Operand} {r : Promotion.Renaming} {g : InstrId → Bool}

/-- Where a block has no store and no phi for a local, the local keeps its value. -/
theorem through_of_no_store (P : Plan) (is : List InstrId) (his : ∀ i ∈ is, P.storeOf? m i ≠ some x)
    (V : InstrId → Option Operand) : P.through m V is x = V x := by
  induction is generalizing V with
  | nil => rfl
  | cons i is ih =>
    simp only [Plan.through,foldl_cons] at ih ⊢
    rw [ih fun j hj => his j (mem_cons_of_mem _ hj),Plan.after,if_neg (his i mem_cons_self)]

theorem start_of_no_phi (h : Finished m n f e names D start finish r g) (hb : m.Reaches e b)
    (hx : ¬D.HasPhi x b) : start b x = worthAbove m f e finish b x := by
  rw [h.complete.starts b hb,Draft.startOf]
  have hnone : (D.newPhis b).find? (fun q => D.localOf q = x) = none := by
    rw [find?_eq_none]
    intro q hq hqx
    exact hx ⟨q,hq,of_decide_eq_true hqx⟩
  rw [hnone]

/-- Without a phi in `s`, a local is worth the same from the immediate dominator down to every
predecessor. -/
theorem finish_eq (h : Finished m n f e names D start finish r g) (hF : Formed m f e)
    {s q t : BlockId} (hs : s ≠ e) (ht : (m.dominators f).idom.get s = some t) (hq : m.Reaches e q)
    (hsq : s ∈ m.succs q) (hx : ¬D.HasPhi x s) (hc : Above (m.dominators f).idom t c)
    (hcq : Above (m.dominators f).idom c q) :
    finish c x = finish t x := by
  have hG := hF.flowGraph
  have htree := hG.isDominatorTree
  induction hc with
  | refl => rfl
  | @up c y hy hty ih =>
    by_cases hct : c = t
    · rw [hct]
    · have hreach : m.Reaches e c := (htree.isSome_iff c).mp (by simp [hy])
      have hfront := (hG.mem_frontier_iff_above hs ht).mpr ⟨q,hq,hsq,hcq,.up hy hty,hct⟩
      have hce : c ≠ e := by
        rintro rfl
        exact hct (htree.tree.above_entry (.up hy hty)).symm
      have hphi : ¬D.HasPhi x c := by
        intro hphi
        exact hx ((h.joined x (h.owner x c hphi)).1.2 c hphi s hfront)
      have hstore : ∀ i ∈ m.body c, (D.base names.tracked.get).storeOf? m i ≠ some x := by
        intro i hi hst
        obtain ⟨hop,ho,hp⟩ := (Plan.storeOf?_eq_some ..).mp hst
        exact hx ((h.joined x hp).1.1 c hreach
          ⟨i,hF.parent c (hG.mem_layout hreach) i (body_subset m c hi),hop,ho⟩ s hfront)
      rw [h.complete.ends c hreach,through_of_no_store _ _ hstore,h.start_of_no_phi hreach hphi,
        worthAbove,if_neg hce,hy]
      exact ih (.trans (.up hy .refl) hcq)

/-! Values are there when they are used. -/

/-- Has the value been computed when the instructions `pre` after the phis of a block have run? -/
def Reached (m : Module) (e : BlockId) (D : Draft) (b : BlockId) (pre : List InstrId)
    (j : InstrId) : Prop :=
  Available m (D.line m) e b (m.phis b ++ D.newPhis b ++ pre) j

/-- What stands for the loads of a block is there before them. -/
def LoadsReached (m : Module) (e : BlockId) (promoted : InstrId → Bool) (D : Draft) (b : BlockId)
    (is : List InstrId) : Prop :=
  ∀ pre l post, is = pre ++ l :: post → ((D.base promoted).loadOf? m l).isSome = true →
    ∀ j, (D.base promoted).value l = .instr j → Reached m e D b pre j

theorem heads_subset (D : Draft) (b : BlockId) (pre : List InstrId) :
    m.phis b ++ pre ⊆ m.phis b ++ D.newPhis b ++ pre :=
  append_subset.mpr ⟨fun _ hi => mem_append_left _ (mem_append_left _ hi),subset_append_right _ _⟩

theorem subset_line (D : Draft) (b : BlockId) : (m.block b).instrs ⊆ D.line m b :=
  instrs_eq_phis_append m b ▸ heads_subset D b (m.body b)

theorem heads_mono {is : List InstrId} (D : Draft) (b : BlockId) (h : pre ⊆ is) :
    m.phis b ++ D.newPhis b ++ pre ⊆ m.phis b ++ D.newPhis b ++ is :=
  append_subset.mpr ⟨subset_append_left _ _,fun _ hi => mem_append_right _ (h hi)⟩

theorem reached_subst (hb : m.Reaches e b)
    (hdom : ∀ d, d ≠ b → m.Dominates e d b → LoadsReached m e names.tracked.get D d (m.body d))
    (hpre : LoadsReached m e names.tracked.get D b pre) {v : Operand} {j : InstrId}
    (hav : ∀ l, v = .instr l → Available m (fun c => (m.block c).instrs) e b (m.phis b ++ pre) l)
    (hj : (D.base names.tracked.get).subst m v = .instr j) : Reached m e D b pre j := by
  cases v with
  | instr l =>
    have hav := hav l rfl
    simp only [Plan.subst] at hj
    split at hj
    · rename_i hl
      have hop : (m.instr l).op ≠ .phi := by
        obtain ⟨a,ha⟩ := Option.isSome_iff_exists.mp hl
        rw [((Plan.loadOf?_eq_some ..).mp ha).1]
        simp
      rcases hav with hlp | ⟨d,hd,hdd,hld⟩
      · have hlp : l ∈ pre := (mem_append.mp hlp).resolve_left fun hp => hop (op_of_mem_phis hp)
        obtain ⟨p1,p2,hp⟩ := append_of_mem hlp
        exact (hpre p1 l p2 hp hl j hj).mono (heads_mono D b (hp ▸ subset_append_left _ _))
      · obtain ⟨p1,p2,hp⟩ := append_of_mem (mem_body_of_not_phi hld hop)
        exact (hdom d hd hdd p1 l p2 hp hl j hj).trans hb
          (.inr ⟨hd,hdd,heads_mono D d (hp ▸ subset_append_left _ _)⟩)
    · obtain rfl := Operand.instr.inj hj
      exact hav.mono_line (heads_subset D b pre) (subset_line D)
  | _ => cases hj

theorem available_operand (hF : Formed m f e) (hb : m.Reaches e b) {post : List InstrId}
    (hbody : m.body b = pre ++ i :: post) {l : InstrId} (hl : .instr l ∈ m.operands i) :
    Available m (fun c => (m.block c).instrs) e b (m.phis b ++ pre) l := by
  have hi : i ∈ m.body b := hbody ▸ by simp
  exact hF.dominated b hb (m.phis b ++ pre) i post
    (by rw [instrs_eq_phis_append,hbody,append_assoc])
    (fun hp => hF.not_phi b (hF.mem_layout hb) i hi (op_of_mem_phis hp)) l hl

section
variable (h : Finished m n f e names D start finish r g)
include h

/-- Through a block, what the locals are worth is there, and so is what stands for their loads. -/
theorem reached_block (hF : Formed m f e) (hb : m.Reaches e b)
    (hdom : ∀ d, d ≠ b → m.Dominates e d b → LoadsReached m e names.tracked.get D d (m.body d))
    (hstart : ∀ x j, start b x = some (.instr j) → Reached m e D b [] j) :
    LoadsReached m e names.tracked.get D b (m.body b) ∧ ∀ x j, finish b x = some (.instr j) →
      Reached m e D b (m.body b) j := by
  -- over the instructions still to come, those before them being dealt with
  have key : ∀ post pre, m.body b = pre ++ post → LoadsReached m e names.tracked.get D b pre →
      (∀ x j, (D.base names.tracked.get).through m (start b) pre x = some (.instr j) →
        Reached m e D b pre j) →
      LoadsFed m r.module (D.base names.tracked.get)
        ((D.base names.tracked.get).through m (start b) pre) post →
      LoadsReached m e names.tracked.get D b (m.body b) ∧
        ∀ x j, (D.base names.tracked.get).through m (start b) (m.body b) x = some (.instr j) →
          Reached m e D b (m.body b) j := by
    intro post
    induction post with
    | nil => grind
    | cons i post ih =>
      intro pre hbody hpre hV hfed
      have hthrough : (D.base names.tracked.get).through m (start b) (pre ++ [i]) =
          (D.base names.tracked.get).after m
            ((D.base names.tracked.get).through m (start b) pre) i := by
        simp only [Plan.through,foldl_append,foldl_cons,foldl_nil]
      have hmono : ∀ j, Reached m e D b pre j → Reached m e D b (pre ++ [i]) j :=
        fun j hj => hj.mono (heads_mono D b (subset_append_left _ _))
      refine ih (pre ++ [i]) (by rw [hbody,append_assoc]; rfl) ?_ ?_ ?_
      · intro pre' l post' hsplit hl j hj
        rcases eq_nil_or_concat post' with rfl | ⟨post'',y,rfl⟩
        · obtain ⟨rfl,hil⟩ := append_inj' hsplit rfl
          obtain rfl := singleton_inj.mp hil
          obtain ⟨a,ha⟩ := Option.isSome_iff_exists.mp hl
          rcases hfed.1 a ha with hv | ⟨_,c,t,hv,_⟩
          · exact hV a j (hv.trans (congrArg some hj))
          · rw [hj] at hv
            cases hv
        · rw [concat_eq_append,← cons_append,← append_assoc] at hsplit
          obtain ⟨hsplit,_⟩ := append_inj' hsplit rfl
          exact hpre pre' l post'' hsplit hl j hj
      · intro x j hx
        rw [hthrough,Plan.after] at hx
        split at hx
        · refine hmono j (reached_subst hb hdom hpre (fun l hl => ?_) (Option.some.inj hx))
          exact available_operand hF hb hbody (mem_operands_of_operand hl (by simp))
        · exact hmono j (hV x j hx)
      · rw [hthrough]
        exact hfed.2
  have hnil : LoadsReached m e names.tracked.get D b [] := by
    intro pre l post hs
    cases pre <;> cases hs
  obtain ⟨h1,h2⟩ := key (m.body b) [] rfl hnil hstart (h.complete.fed b hb)
  refine ⟨h1,fun x j hx => h2 x j ?_⟩
  rw [← h.complete.ends b hb]
  exact hx

theorem reached (hF : Formed m f e) (hb : m.Reaches e b) :
    (∀ x j, start b x = some (.instr j) → Reached m e D b [] j) ∧
    LoadsReached m e names.tracked.get D b (m.body b) ∧ ∀ x j, finish b x = some (.instr j) →
      Reached m e D b (m.body b) j := by
  have htree := hF.flowGraph.isDominatorTree
  generalize hk :
    (m.reversePostorder e).length - (postorderNumbers (m.reversePostorder e)).get b = k
  induction k using Nat.strongRecOn generalizing b with
  | _ k ih =>
    subst hk
    have hrank : ∀ d, d ≠ b → Above (m.dominators f).idom d b →
        (m.reversePostorder e).length - (postorderNumbers (m.reversePostorder e)).get d <
          (m.reversePostorder e).length - (postorderNumbers (m.reversePostorder e)).get b := by
      intro d hd hdb
      have h1 := htree.tree.rank_lt hdb hd
      have h2 := htree.ranked.bound b ((htree.ranked.mem_iff b).mpr hb)
      omega
    have hstart : ∀ x j, start b x = some (.instr j) → Reached m e D b [] j := by
      intro x j hx
      by_cases hphi : D.HasPhi x b
      · obtain ⟨q,hq,hqx⟩ := hphi
        rw [h.complete.starts b hb,Draft.startOf] at hx
        split at hx
        · rename_i q' hq'
          obtain rfl := Operand.instr.inj (Option.some.inj hx)
          exact Or.inl (mem_append_left _ (mem_append_right _ (mem_of_find?_eq_some hq')))
        · rename_i hnone
          exact absurd (List.find?_eq_none.mp hnone q hq) (by simp [hqx])
      · rw [h.start_of_no_phi hb hphi,worthAbove] at hx
        split at hx
        · cases hx
        · rename_i hbe
          obtain ⟨t,ht⟩ := Option.isSome_iff_exists.mp ((htree.isSome_iff b).mpr hb)
          rw [ht] at hx
          have htb : t ≠ b := by
            rintro rfl
            exact Nat.lt_irrefl _ (htree.tree.rank t t ht hbe)
          have hta : Above (m.dominators f).idom t b := .up ht .refl
          have htr : m.Reaches e t := (htree.isSome_iff t).mp (htree.tree.mem b t ht).2
          have := (ih _ (hrank t htb hta) htr rfl).2.2 x j hx
          exact Available.trans hb this
            (Or.inr ⟨htb,htree.dominates_of_above hta,List.Subset.refl _⟩)
    refine ⟨hstart,h.reached_block hF hb (fun d hd hdd => ?_) hstart⟩
    have hdr : m.Reaches e d := hdd.reaches hb
    exact (ih _ (hrank d hd (htree.dominators b d hb hdd)) hdr rfl).2.1

/-! The result. -/

theorem extends_ : r.module.Extends n := .of_code h.literal

end

theorem keeps_phi (D : Draft) (hP : Promotable m f promoted) {p : InstrId}
    (hp : (m.instr p).op = .phi) : (D.base promoted).keeps m p = true := by
  rw [Plan.keeps_iff,Plan.loadOf?,Plan.storeOf?,hp]
  refine ⟨?_,rfl,rfl⟩
  by_contra ht
  have := (hP.alloca p (eq_true_of_ne_false ht)).2
  rw [hp] at this
  cases this

variable (h : Finished m n f e names D start finish r g)
include h

theorem instrs_eq (hb : b ∈ (m.func f).layout) :
    (n.block b).instrs = m.phis b ++ D.newPhis b ++ (m.body b).filter
      ((D.base names.tracked.get).keeps m) := by
  have hkeep : ∀ i, (!g i) = (D.base names.tracked.get).keeps m i := by
    intro i
    have := h.gone i
    simp_all
  rw [instrs_eq_code,h.drafted.fits.block b hb]
  simp only [Draft.line]
  rw [filter_append,filter_append]
  congr 1
  · congr 1
    · refine filter_eq_self.mpr fun i hi => ?_
      rw [hkeep]
      exact keeps_phi D h.promotable (op_of_mem_phis hi)
    · refine filter_eq_self.mpr fun i hi => ?_
      have hsz := (h.drafted.fits.newPhi b i hi).1
      cases hg : g i with
      | false => rfl
      | true => exact absurd (h.drafted.fits.gone i hg).1 (Nat.not_lt.mpr hsz)
  · exact filter_congr fun i _ => hkeep i

theorem newPhis_entry (hF : Formed m f e) (he : m.preds e = []) :
    D.newPhis e = [] := by
  by_contra hne
  obtain ⟨c,hc⟩ := h.home e hne
  have hlen := (hF.flowGraph.of_mem_frontier hc).2.2
  rw [FlowGraph.reachedPreds,he] at hlen
  simp at hlen

theorem operands_eq (hi : i < m.instrTable.size)
    (hk : (D.base names.tracked.get).keeps m i = true) :
    n.code.instr i = { m.code.instr i with
      operands := (m.operands i).map ((D.base names.tracked.get).subst m) } := by
  have hg : g i = false := by
    by_contra hg
    have := (h.gone i).mp (by simpa using hg)
    rw [hk] at this
    cases this
  have hmap : (m.operands i).map (Draft.operand { D with gone := g }) =
      (m.operands i).map ((D.base names.tracked.get).subst m) :=
    map_congr_left fun v _ => (h.complete.renamed.subst_eq v).symm
  rw [h.drafted.fits.kept i hi hg,hmap]

theorem unmentioned {a : InstrId}
    (hk : (D.base names.tracked.get).keeps m i = true) (ha : .instr a ∈ m.operands i) :
    names.tracked.get a = false := by
  by_contra hp
  have hk := (Plan.keeps_iff ..).mp hk
  have hp : names.tracked.get a = true := eq_true_of_ne_false hp
  rcases h.promotable.used a hp i ha with ⟨hop,ho⟩ | ⟨hop,ho,_⟩
  · have hl : (D.base names.tracked.get).loadOf? m i = some a :=
      (Plan.loadOf?_eq_some ..).mpr ⟨hop,ho,hp⟩
    rw [hk.2.1] at hl
    cases hl
  · have hl : (D.base names.tracked.get).storeOf? m i = some a :=
      (Plan.storeOf?_eq_some ..).mpr ⟨hop,ho,hp⟩
    rw [hk.2.2] at hl
    cases hl

theorem promotes (hR : Rooted m f e) :
    Promotes m n f e (D.plan names.tracked.get start finish) := by
  have hF := hR.runnable.toFormed
  have hP := h.promotable
  have hsz : ∀ i ∈ m.instrs f, i < m.instrTable.size := by
    intro i hi
    obtain ⟨b,hb,hib⟩ := mem_instrs_iff.mp hi
    exact hF.lt_size hb hib
  refine ⟨?_,fun b hb => h.instrs_eq hb,?_,?_,?_,
    h.drafted.nodup_lines hF h.complete.named.nodup,?_,?_,
    fun i _ hk a ha => h.unmentioned hk ha,?_,?_,?_,?_,?_,h.complete.ends,?_,?_⟩
  · have := congrArg Func.layout (h.drafted.fits.func f)
    exact this
  · intro i hi hk
    have hc := h.operands_eq (hsz i hi) hk
    have h1 := congrArg Instr.op hc
    have h2 := congrArg Instr.type hc
    have h3 := congrArg Instr.object hc
    exact ⟨h1,h2,h3,congrArg Instr.operands hc⟩
  · intro i hi c hc
    exact h.drafted.fits.literal c (hR.mirror.literal_lt hc)
  · intro b _ p hp
    exact (h.drafted.fits.newPhi b p hp).2.1
  · intro a ha
    obtain ⟨⟨b,hb,hab⟩,hop⟩ := hP.alloca a ha
    have hae := hR.allocas a (mem_instrs_iff.mpr ⟨b,hb,body_subset m b hab⟩) hop
    exact ⟨mem_body_of_not_phi hae (by simp [hop]),hop⟩
  · exact hP.scalar
  · intro i _ a ha x hx
    by_contra hp
    obtain ⟨hop,_,_⟩ := (Plan.storeOf?_eq_some ..).mp ha
    rcases hP.used x (eq_true_of_ne_false hp) i (mem_operands_of_operand hx (by simp))
      with ⟨hop',_⟩ | ⟨_,_,hne⟩
    · rw [hop] at hop'
      cases hop'
    · exact hne hx
  · intro q hq s hs p hp
    obtain ⟨v,hv⟩ := h.complete.fedAll q hq s hs p hp
    have ho : n.operands p = arms (D.feeds p) := (h.drafted.fits.newPhi s p hp).2.2.2.2
    rw [incomingFor?_of_operands ho]
    cases hf : (D.feeds p).find? (·.2 = q) with
    | none => exact absurd (List.find?_eq_none.mp hf _ hv) (by simp)
    | some x =>
      refine ⟨x.1,rfl,?_⟩
      have hx : x.2 = q := by simpa using List.find?_some hf
      have := (h.complete.fedBy p x (mem_of_find?_eq_some hf)).2
      rw [hx] at this
      exact this.mono h.extends_
  · intro x
    have hno : ¬D.HasPhi x e := by
      rintro ⟨q,hq,_⟩
      rw [h.newPhis_entry hF hR.entry_preds] at hq
      cases hq
    exact (h.start_of_no_phi (.refl m e) hno).trans (by rw [worthAbove,if_pos rfl])
  · intro b hb p hp
    show start b (D.localOf p) = _
    rw [h.complete.starts b hb,Draft.startOf]
    split
    · rename_i q hq
      have hql : D.localOf q = D.localOf p := by simpa using List.find?_some hq
      rw [h.complete.named.distinct b q (mem_of_find?_eq_some hq) p hp hql]
    · rename_i hnone
      exact absurd (List.find?_eq_none.mp hnone p hp) (by simp)
  · intro b hb x hno
    have hno : ¬D.HasPhi x b := by
      rintro ⟨q,hq,hqx⟩
      exact hno q hq hqx
    have hst := h.start_of_no_phi hb hno
    by_cases hbe : b = e
    · subst hbe
      refine ⟨fun q hq hbq => ?_,fun j hj => ?_⟩
      · have := (hF.mirrored q (hF.mem_layout hq) b (hF.mem_layout hb)).mpr hbq
        rw [hR.entry_preds] at this
        cases this
      · have hj : start b x = some (.instr j) := hj
        rw [hst,worthAbove,if_pos rfl] at hj
        cases hj
    · have htree := hF.flowGraph.isDominatorTree
      obtain ⟨t,ht⟩ := Option.isSome_iff_exists.mp ((htree.isSome_iff b).mpr hb)
      rw [worthAbove,if_neg hbe,ht] at hst
      have hta : Above (m.dominators f).idom t b := .up ht .refl
      have htb : t ≠ b := by
        rintro rfl
        exact Nat.lt_irrefl _ (htree.tree.rank t t ht hbe)
      have htr : m.Reaches e t := (htree.isSome_iff t).mp (htree.tree.mem b t ht).2
      refine ⟨fun q hq hbq => hst.trans ?_,fun j hj => ?_⟩
      · exact (h.finish_eq hF hbe ht hq hbq hno (htree.pred b t q ht hbe hq hbq) .refl).symm
      · have hj : start b x = some (.instr j) := hj
        rw [hst] at hj
        rcases (h.reached hF htr).2.2 x j hj with hj | ⟨c,hc,hct,hj⟩
        · exact ⟨t,htb,htree.dominates_of_above hta,hj⟩
        · have hcb := hct.trans (htree.dominates_of_above hta)
          refine ⟨c,?_,hcb,hj⟩
          rintro rfl
          exact htb (Dominates.antisymm (htree.dominates_of_above hta) hct hb)
  · intro b hb
    exact (h.complete.fed b hb).mono rfl rfl h.extends_
  · intro b hb pre l post hline hl j hj
    have hbl := hF.mem_layout hb
    have hload := (h.reached hF hb).2.1
    obtain ⟨a,ha⟩ := Option.isSome_iff_exists.mp hl
    have hop := ((Plan.loadOf?_eq_some ..).mp ha).1
    have hhead : l ∉ m.phis b ++ D.newPhis b := by
      intro hm
      rcases mem_append.mp hm with hm | hm
      · rw [op_of_mem_phis hm] at hop
        cases hop
      · rw [instr_of_size_le (h.drafted.fits.newPhi b l hm).1] at hop
        cases hop
    have hline : (m.phis b ++ D.newPhis b) ++ m.body b = pre ++ l :: post := hline
    rcases append_eq_append_iff.mp hline with ⟨as,hpre,hbody⟩ | ⟨as,hpre,hbody⟩
    · rw [hpre]
      exact hload as l post hbody hl j hj
    · cases as with
      | nil =>
        rw [append_nil] at hpre
        rw [← hpre]
        have := hload [] l post hbody.symm hl j hj
        rw [Reached,append_nil] at this
        exact this
      | cons y as => simp_all

end Finished
end CMinusF
