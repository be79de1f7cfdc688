import CMinusF.Proofs.Graph.WellFormed
import CMinusF.Proofs.Promotion.Correct
import Mathlib.Data.List.Count

/-! Promotion leaves a well-formed function behind: it passes the check, is in single assignment
form with all its phis fed, and what is gone is gone everywhere. -/
namespace CMinusF
open CMinusF.Module List

/-- What promotion takes away: the locals and what loads or stores them. -/
def Promotion.discards (m : Module) (f : FuncId) (i : InstrId) : Bool :=
  (candidates m f).any fun a => i = a || .instr a ∈ m.operands i

namespace Finished
variable {m n : Module} {f : FuncId} {e b c : BlockId} {names : Promotion.Names} {D : Draft}
  {start finish : BlockId → InstrId → Option Operand} {r : Promotion.Renaming} {g : InstrId →
    Bool} {i j p : InstrId}

section
variable (h : Finished m n f e names D start finish r g)
include h

theorem keeps_eq (htr : ∀ a, names.tracked.get a = true ↔ a ∈ Promotion.candidates m f)
    (i : InstrId) :
    (D.base names.tracked.get).keeps m i = !Promotion.discards m f i := by
  rw [Bool.eq_not,ne_eq,Bool.eq_iff_iff,Promotion.discards,any_eq_true]
  simp only [Bool.or_eq_true,decide_eq_true_eq]
  intro hiff
  by_cases hd : ∃ a ∈ Promotion.candidates m f, i = a ∨ .instr a ∈ m.operands i
  · have hk := hiff.mpr hd
    obtain ⟨a,ha,rfl | hai⟩ := hd
    · exact Bool.noConfusion (((Plan.keeps_iff ..).mp hk).1.symm.trans ((htr i).mpr ha))
    · exact Bool.noConfusion ((h.unmentioned hk hai).symm.trans ((htr a).mpr ha))
  · rcases (D.base names.tracked.get).keeps_or m i with hk | hp | ⟨a,ha⟩ | ⟨a,ha⟩
    · exact hd (hiff.mp hk)
    · exact hd ⟨i,(htr i).mp hp,.inl rfl⟩
    · obtain ⟨_,ho,hp⟩ := (Plan.loadOf?_eq_some ..).mp ha
      exact hd ⟨a,(htr a).mp hp,.inr (mem_operands_of_operand ho (by simp))⟩
    · obtain ⟨_,ho,hp⟩ := (Plan.storeOf?_eq_some ..).mp ha
      exact hd ⟨a,(htr a).mp hp,.inr (mem_operands_of_operand ho (by simp))⟩

/-! New phis. -/

theorem block_of_newPhi (hb : p ∈ D.newPhis b) (hc : p ∈ D.newPhis c) :
    b = c := by
  have h1 := (h.drafted.fits.newPhi b p hb).2.2.1
  rw [(h.drafted.fits.newPhi c p hc).2.2.1,Option.some.injEq] at h1
  exact h1.symm

theorem edge_of_fed (hp : p ∈ D.newPhis b) {x : Operand × BlockId}
    (hx : x ∈ D.feeds p) : b ∈ m.succs x.2 := by
  have hpos : 0 < ((D.feeds p).map (·.2)).count x.2 := count_pos_iff.mpr (mem_map.mpr ⟨x,hx,rfl⟩)
  have hmem := count_pos_iff.mp (hpos.trans_le (h.complete.fedOnce p x.2))
  obtain ⟨s,hs,hps⟩ := mem_flatMap.mp hmem
  exact h.block_of_newPhi hp hps ▸ hs

theorem feeds_nodup (hF : Formed m f e)
    (hnd : ∀ b ∈ (m.func f).layout, (m.succs b).Nodup) (p : InstrId) :
    ((D.feeds p).map (·.2)).Nodup := by
  refine nodup_iff_count_le_one.mpr fun c => ?_
  by_cases hc : c ∈ (D.feeds p).map (·.2)
  · obtain ⟨x,hx,rfl⟩ := mem_map.mp hc
    have hl := hF.mem_layout (h.complete.fedBy p x hx).1
    have hphis : ((m.succs x.2).flatMap D.newPhis).Nodup :=
      nodup_flatMap.mpr ⟨fun b _ => h.complete.named.nodup b,
        (hnd _ hl).imp fun hne _ hq hq' => hne (h.block_of_newPhi hq hq')⟩
    exact Nat.le_trans (h.complete.fedOnce p x.2) (nodup_iff_count_le_one.mp hphis p)
  · rw [count_eq_zero.mpr hc]
    exact Nat.zero_le 1

end


/-! The check. -/

theorem owned_of_resolved (hv : m.verify f = .ok ()) {v : Operand} (hr : Resolved m f names v) :
    Owned f v := by
  rcases hr.source with ⟨x,rfl⟩ | ⟨k,rfl⟩ | ⟨i,hi,hst,rfl⟩
  · trivial
  · trivial
  · obtain ⟨a,ha⟩ := Option.isSome_iff_exists.mp hst
    obtain ⟨_,ho,_⟩ := (Plan.storeOf?_eq_some ..).mp ha
    -- a store has a second operand, so it has a first
    refine owned_of_verify hv hi ?_
    rw [operand] at ho ⊢
    grind

variable (h : Finished m n f e names D start finish r g)
include h

theorem owned_operand (hF : Formed m f e) (hv : m.verify f = .ok ())
    (hi : i ∈ n.instrs f) {v : Operand} (hvi : v ∈ n.operands i) : Owned f v := by
  rcases h.mem_instrs_iff.mp hi with ⟨b,hb,hib,hk⟩ | ⟨b,hb,hib⟩
  · have him := Module.mem_instrs_iff.mpr ⟨b,hb,hib⟩
    rw [h.operands_kept hF hb hib hk,mem_map] at hvi
    obtain ⟨w,hw,rfl⟩ := hvi
    rcases h.resolved_subst hF him hk hw with ⟨_,hr⟩ | ⟨_,hid⟩
    · exact owned_of_resolved hv hr
    · rw [hid]
      exact owned_of_verify hv him hw
  · rw [h.operands_newPhi hib,mem_flatMap] at hvi
    obtain ⟨x,hx,hxv⟩ := hvi
    rcases mem_pair.mp hxv with rfl | rfl
    · exact owned_of_resolved hv (h.complete.renamed.fed i x hx)
    · exact hF.owned _ (hF.mem_layout (h.complete.fedBy i x hx).1)

/-- Branches go where they went, as long as no block is stored in a local. -/
theorem targets_eq (hF : Formed m f e) (hb : b ∈ (m.func f).layout)
    (hi : i ∈ (m.block b).instrs) (hop : (m.instr i).op.isTerminator = true)
    (hst : ∀ s ∈ m.instrs f, ((D.base names.tracked.get).storeOf? m s).isSome = true →
      blockOf? (m.operand s 0) = none) :
    n.targets i = m.targets i := by
  have hk : (D.base names.tracked.get).keeps m i = true := by
    apply h.keeps_of_op <;> (intro ho; rw [ho] at hop; cases hop)
  rw [targets,targets,(h.op_eq (hF.lt_size hb hi)).1,h.operands_kept hF hb hi hk,filterMap_map]
  split
  · refine filterMap_congr fun v hv => ?_
    rcases h.resolved_subst hF (Module.mem_instrs_iff.mpr ⟨b,hb,hi⟩) hk hv
      with ⟨⟨l,rfl⟩,hr⟩ | ⟨_,hid⟩
    · rw [Function.comp_apply]
      cases hw : (D.base names.tracked.get).subst m (.instr l) with
      | block c =>
        rw [hw] at hr
        rcases hr.source with ⟨x,hx⟩ | ⟨k,hx⟩ | ⟨s,hs,hs1,hs2⟩
        · cases hx
        · cases hx
        · have := hst s hs hs1
          rw [hs2] at this
          cases this
      | _ => rfl
    · rw [Function.comp_apply,hid]
  · rfl

theorem checked (hR : Ready m f e) (hv : m.verify f = .ok ())
    (hnd : ∀ b ∈ (m.func f).layout, (m.succs b).Nodup) (hb : b ∈ (m.func f).layout)
    {pre post : List InstrId}
    (hs : (n.block b).instrs = pre ++ i :: post) : n.Checked f b pre i post := by
  have hF := hR.formed
  have hFn := h.formed hF
  have hbn : b ∈ (n.func f).layout := by rwa [h.layout_eq]
  have hib : i ∈ (n.block b).instrs := hs ▸ by simp
  have hin := Module.mem_instrs_iff.mpr ⟨b,hbn,hib⟩
  refine ⟨h.parent_eq hF hb hib,hFn.terminator_last hbn hs,hFn.op_before_phi hbn hs,fun hop => ?_,
    fun hvoid => ?_,fun v hvi => ?_⟩
  · rcases h.pairs_of_phi hF hb (hFn.mem_phis hbn hib hop) with ⟨hp,ho⟩ | ⟨hp,ho⟩
    · refine ⟨D.feeds i,ho,h.feeds_nodup hF hnd i,fun x hx => ?_⟩
      rw [(h.edges_eq b).2]
      exact (hF.mirrored _ (hF.mem_layout (h.complete.fedBy i x hx).1) b hb).mpr
        (h.edge_of_fed hp hx)
    · obtain ⟨pre',post',hpp⟩ := append_of_mem (phis_subset m b hp)
      obtain ⟨ps,hps,hpnd,hpreds⟩ :=
        ((blockChecked hv hb).instr pre' i post' hpp).pairs (op_of_mem_phis hp)
      refine ⟨_,ho ps hps,by rwa [map_map],fun x hx => ?_⟩
      obtain ⟨y,hy,rfl⟩ := mem_map.mp hx
      rw [(h.edges_eq b).2]
      exact hpreds y hy
  · -- a user would need a value
    by_contra hne
    obtain ⟨u,hu⟩ := exists_mem_of_ne_nil _ hne
    have hui : .instr i ∈ n.operands u := (h.drafted.mirror.mem_uses_iff (by simp) u).mp hu
    have := hFn.valued u ((h.ready hR).linked i hin u hu) i hui
    rw [hvoid] at this
    cases this
  · refine operandDefect?_eq_none_iff.mpr ⟨h.owned_operand hF hv hin hvi,?_⟩
    rintro j rfl
    exact ⟨hFn.home i hin j hvi,hFn.valued i hin j hvi⟩

theorem verified (hR : Ready m f e) (hv : m.verify f = .ok ())
    (hnd : ∀ b ∈ (m.func f).layout, (m.succs b).Nodup)
    (hst : ∀ s ∈ m.instrs f, ((D.base names.tracked.get).storeOf? m s).isSome = true →
      blockOf? (m.operand s 0) = none) :
    n.verify f = .ok () := by
  have hF := hR.formed
  refine verify_of_blockChecked fun b hbn => ?_
  have hb : b ∈ (m.func f).layout := by rwa [← h.layout_eq]
  have hc := blockChecked hv hb
  refine ⟨hc.owned,fun pre i post hs => h.checked hR hv hnd hb hs,?_,?_,?_⟩
  · obtain ⟨is,t,hbody,ht,_⟩ := (h.formed hF).terminated b hbn
    have htm : t ∈ m.body b := by
      have : t ∈ n.body b := hbody ▸ by simp
      rw [h.body_eq hF hb] at this
      exact (mem_filter.mp this).1
    have hop : (m.instr t).op.isTerminator = true := by
      rw [← (h.op_eq (hF.lt_size hb (body_subset m b htm))).1]
      exact ht
    refine ⟨n.phis b ++ is,t,by rw [instrs_eq_phis_append,hbody,append_assoc],ht,fun c => ?_⟩
    rw [h.targets_eq hF hb (body_subset m b htm) hop hst,(h.edges_eq b).1]
    -- the block had one terminator
    obtain ⟨is',t',hbody',_,his',htargets⟩ := Tidy.terminated hv hb
    rw [hbody'] at htm
    rcases mem_append.mp htm with htm | htm
    · rw [his' t htm] at hop
      cases hop
    · exact mem_singleton.mp htm ▸ htargets c
  · intro c hcs
    rw [(h.edges_eq b).1] at hcs
    rw [(h.edges_eq c).2]
    exact hc.succs c hcs
  · intro c hcs
    rw [(h.edges_eq b).2] at hcs
    rw [(h.edges_eq c).1]
    exact hc.preds c hcs

theorem phisComplete (hF : Formed m f e)
    (hnd : ∀ b ∈ (m.func f).layout, (m.succs b).Nodup) (hc : PhisComplete m e) :
    PhisComplete n e := by
  intro b hb p hp hop q hq hqr
  rw [h.reaches_eq] at hb hqr
  rw [(h.edges_eq b).2] at hq
  have hbl := hF.mem_layout hb
  have hbn : b ∈ (n.func f).layout := by rwa [h.layout_eq]
  rcases h.pairs_of_phi hF hbl ((h.formed hF).mem_phis hbn hp hop) with ⟨hp,ho⟩ | ⟨hp,ho⟩
  · rw [incoming_of_operands ho,count_map_of_injective _ _ fun _ _ => Operand.block.inj]
    obtain ⟨v,hv⟩ :=
      h.complete.fedAll q hqr b ((hF.mirrored q (hF.mem_layout hqr) b hbl).mp hq) p hp
    have h1 := nodup_iff_count_le_one.mp (h.feeds_nodup hF hnd p) q
    have h2 := count_pos_iff.mpr (mem_map.mpr ⟨_,hv,rfl⟩ : q ∈ (D.feeds p).map (·.2))
    omega
  · obtain ⟨ps,hps⟩ := hF.pairs b hbl p hp
    have hold := hc b hb p (phis_subset m b hp) (op_of_mem_phis hp) q hq hqr
    rw [incoming_of_operands hps] at hold
    rw [incoming_of_operands (ho ps hps)]
    simpa [Function.comp_def] using hold

theorem unused_of_gone (hR : Ready m f e) (hj : j ∈ m.instrs f)
    (hk : (D.base names.tracked.get).keeps m j = false) (u : InstrId) :
    .instr j ∉ n.operands u := by
  have hF := hR.formed
  obtain ⟨b,hb,hjb⟩ := Module.mem_instrs_iff.mp hj
  have hres : ¬Resolved m f names (.instr j) := fun hr =>
    Bool.noConfusion (hk.symm.trans (h.keeps_of_resolved hF hr (hF.lt_size hb hjb)))
  intro hu
  rcases h.user_cases hu with ⟨hku,_,⟨hju,hval⟩ | ⟨l,_,hl⟩⟩ | ⟨_,x,hx,hxj⟩
  · have hum := hR.linked j hj u ((hR.mirror.mem_uses_iff (by simp) u).mpr hju)
    rcases (D.base names.tracked.get).keeps_or m j with hk' | hp | ⟨a,ha⟩ | ⟨a,ha⟩
    · exact Bool.noConfusion (hk.symm.trans hk')
    · exact Bool.noConfusion ((h.unmentioned hku hju).symm.trans hp)
    · obtain ⟨_,ho,hp⟩ := (Plan.loadOf?_eq_some ..).mp ha
      have := (h.complete.renamed.value j).mpr
        ⟨by rw [ha]; rfl,h.promotable.linked a hp j (mem_operands_of_operand ho (by simp))⟩
      rw [hval] at this
      cases this
    · have := hF.store_void j hj ((Plan.storeOf?_eq_some ..).mp ha).1
      rw [hF.valued u hum j hju] at this
      cases this
  · exact hres (h.complete.renamed.resolved l _ hl)
  · exact hres (hxj ▸ h.complete.renamed.fed u x hx)

end Finished

/-- Promotion gives a well-formed function, with new phis after the old ones and without what it
discards, which nothing mentions any more. No block may be stored in a local that is promoted, and
stores have no value. -/
theorem promotion_wellFormed {m : Module} {f : FuncId} (hr : Regular m f) (hw : WellFormed m f)
    (hvoid : ∀ i ∈ m.instrs f, (m.instr i).op = .store → (m.instr i).type.isVoid = true)
    (hblock : ∀ i ∈ m.instrs f, Promotion.discards m f i = true → (m.instr i).op = .store →
      blockOf? (m.operand i 0) = none) :
    let r := Promotion.run m f (m.dominators f)
    r.failure = none ∧ WellFormed r.module f ∧ (r.module.func f).layout = (m.func f).layout ∧
      (∀ b ∈ (m.func f).layout, ∃ new : List InstrId,
        (∀ p ∈ new, p ∉ m.instrs f ∧ (r.module.instr p).op = .phi) ∧
        (r.module.block b).instrs = m.phis b ++ new ++ (m.body b).filter fun i =>
          !Promotion.discards m f i) ∧
      ∀ j ∈ m.instrs f, Promotion.discards m f j = true → j ∉ r.module.instrs f ∧
        ∀ u, .instr j ∉ r.module.operands u := by
  intro r
  by_cases hc : (m.func f).isDeclaration = true ∨ Promotion.candidates m f = []
  · obtain ⟨hm,hfail⟩ := AllReady.run_of_no_candidates m f hc
    have hnone : Promotion.candidates m f = [] := by
      rcases hc with hc | hc
      · rw [Func.isDeclaration,List.isEmpty_iff] at hc
        rw [Promotion.candidates,hc]
        rfl
      · exact hc
    have hdis : ∀ i, Promotion.discards m f i = false := fun i => by
      rw [Promotion.discards,hnone]
      rfl
    refine ⟨hfail,hm.symm ▸ hw,by rw [hm],fun b _ => ⟨[],by simp,?_⟩,fun j _ hj => ?_⟩
    · rw [hm,List.filter_eq_self.mpr fun i _ => by simp [hdis],List.append_nil]
      exact instrs_eq_phis_append m b
    · rw [hdis j] at hj
      cases hj
  · rw [not_or] at hc
    obtain ⟨e,he⟩ : ∃ e, (m.func f).layout.head? = some e := by
      cases hl : (m.func f).layout with
      | nil => exact absurd (by rw [Func.isDeclaration,hl]; rfl) hc.1
      | cons e bs => exact ⟨e,rfl⟩
    have hF := hr.toTidy.formed hw.verified (hw.ssa e he) hvoid he
    have hR : Ready m f e := ⟨hF,hr.mirror,(hw.ssa e he).linked⟩
    obtain ⟨names,D,start,finish,rn,g,h,htr,hfail⟩ := hR.finished hc.2
    have hkeep := h.keeps_eq htr
    have hFn := h.formed hF
    have hentry : ∀ e', (r.module.func f).layout.head? = some e' → e' = e := by
      intro e' he'
      rw [h.layout_eq,he] at he'
      exact (Option.some.inj he').symm
    refine ⟨hfail,⟨?_,?_,?_⟩,h.layout_eq f,fun b hb => ⟨D.newPhis b,fun p hp => ?_,?_⟩,
      fun j hj hd => ⟨?_,?_⟩⟩
    · refine h.verified hR hw.verified hr.succs_nodup fun s hs hst => ?_
      obtain ⟨a,ha⟩ := Option.isSome_iff_exists.mp hst
      refine hblock s hs ?_ ((Plan.storeOf?_eq_some ..).mp ha).1
      by_contra hd
      have := hkeep s
      rw [eq_false_of_ne_true hd,Bool.not_false,Plan.keeps_iff] at this
      rw [this.2.2] at ha
      cases ha
    · intro e' he'
      rw [hentry e' he']
      exact ⟨fun b hb pre i post hpp hop => hFn.dominated b hb pre i post hpp fun hi =>
        hop (op_of_mem_phis hi),
        fun b hb p hp hop => hFn.phi_dominated b hb p (hFn.mem_phis (hFn.mem_layout hb) hp hop),
        (h.ready hR).linked⟩
    · intro e' he'
      rw [hentry e' he']
      exact h.phisComplete hF hr.succs_nodup (hw.complete e he)
    · obtain ⟨hsz,hop,_⟩ := h.drafted.fits.newPhi b p hp
      refine ⟨fun hpm => ?_,hop⟩
      obtain ⟨c,hc,hpc⟩ := mem_instrs_iff.mp hpm
      exact absurd (hF.lt_size hc hpc) (Nat.not_lt.mpr hsz)
    · rw [h.instrs_eq hb]
      congr 1
      exact List.filter_congr fun i _ => hkeep i
    · rw [h.mem_instrs_iff]
      rintro (⟨b,_,_,hk⟩ | ⟨b,_,hjb⟩)
      · rw [hkeep,hd] at hk
        cases hk
      · obtain ⟨c,hc,hjc⟩ := mem_instrs_iff.mp hj
        exact absurd (hF.lt_size hc hjc) (Nat.not_lt.mpr (h.drafted.fits.newPhi b j hjb).1)
    · exact h.unused_of_gone hR hj (by rw [hkeep,hd]; rfl)

theorem halfWritten_wellFormed : WellFormed halfWritten 0 :=
  .of_no_phi rfl rfl halfWritten_singleAssignment (by decide) (by decide)

/-- The join gets a phi, and the local with its store and its load is gone. -/
theorem promotion_wellFormed_halfWritten :
    let r := Promotion.run halfWritten 0 (halfWritten.dominators 0)
    Regular halfWritten 0 ∧ WellFormed halfWritten 0 ∧ WellFormed r.module 0 ∧
      (r.module.block ⟨0,3⟩).instrs = [7,6] ∧
        r.module.incoming 7 = [(.literal 1,.block ⟨0,1⟩),(.literal 2,.block ⟨0,2⟩)] ∧
      ∀ j ∈ [0,2,5], j ∉ r.module.instrs 0 := by
  intro r
  have hr : Regular halfWritten 0 := ⟨⟨halfWritten_mirror,by decide,by decide,by decide⟩,by decide⟩
  have h := promotion_wellFormed hr halfWritten_wellFormed (by decide) (by decide)
  exact ⟨hr,halfWritten_wellFormed,h.2.1,by decide +kernel,by decide +kernel,fun j hj =>
    (h.2.2.2.2 j ((by decide : ∀ j ∈ [0,2,5], j ∈ halfWritten.instrs 0) j hj)
      ((by decide : ∀ j ∈ [0,2,5], Promotion.discards halfWritten 0 j = true) j hj)).1⟩

def storedBlock : Module :=
  let b (n : Nat) : BlockId := ⟨0,n⟩
  { name := "stored", globals := [], funcs := [0], globalTable := .empty
    funcTable := ⟨#[⟨"f",.void,[],[b 0,b 1,b 2,b 3],⟨#[
      ⟨"entry",[0,1,2,3],[],[b 1,b 2],[]⟩,⟨"yes",[4],[b 0],[],[3]⟩,
      ⟨"no",[5],[b 0],[],[3]⟩,⟨"other",[6],[],[],[1]⟩]⟩,2,.empty,[]⟩]⟩
    instrTable := ⟨#[
      ⟨.alloca,.pointer .i1,some 0,some .i1,[],some (b 0),[1,2]⟩,
      ⟨.store,.void,none,none,[.block (b 3),.instr 0],some (b 0),[]⟩,
      ⟨.load,.i1,some 1,none,[.instr 0],some (b 0),[3]⟩,
      ⟨.br,.void,none,none,[.instr 2,.block (b 1),.block (b 2)],some (b 0),[]⟩,
      ⟨.ret,.void,none,none,[],some (b 1),[]⟩,⟨.ret,.void,none,none,[],some (b 2),[]⟩,
      ⟨.ret,.void,none,none,[],some (b 3),[]⟩]⟩
    literalTable := .empty }

theorem storedBlock_wellFormed : WellFormed storedBlock 0 :=
  .of_no_phi rfl rfl (.of_entry (by decide) (by decide) (by decide) (by decide) (by decide))
    (by decide) (by decide)

/-- The branch then seems to go to the block, which its successors do not say. -/
theorem storedBlock_not_verified :
    Regular storedBlock 0 ∧ WellFormed storedBlock 0 ∧
      (∀ i ∈ storedBlock.instrs 0, (storedBlock.instr i).op = .store →
        (storedBlock.instr i).type.isVoid = true) ∧
      (Promotion.run storedBlock 0 (storedBlock.dominators 0)).failure = none ∧
      (Promotion.run storedBlock 0 (storedBlock.dominators 0)).module.funcDefect? 0 =
        some (some 3,.missingSuccessor "entry" "other") :=
  ⟨⟨⟨.of_entries (by decide) (by decide) (by decide),by decide,by decide,by decide⟩,by decide⟩,
    storedBlock_wellFormed,by decide,by decide +kernel,by decide +kernel⟩

end CMinusF
