import CMinusF.Proofs.Flow.LoopNesting
import CMinusF.Proofs.Hoisting.Exhausted
import CMinusF.Proofs.Hoisting.Moves

/-! Hoisting a second time does nothing: a loop stays exhausted when loops around it and beside it
have their turn. -/
namespace CMinusF
open CMinusF.Module List

namespace Hoisting

/-- Instructions know their block and stand in it once. -/
structure Placed (m : Module) (f : FuncId) : Prop where
  nodup : ∀ b ∈ (m.func f).layout, (m.block b).instrs.Nodup
  parent : ∀ b ∈ (m.func f).layout, ∀ i ∈ (m.block b).instrs, (m.instr i).parent = some b

section
variable {m n k : Module} {f : FuncId} {e b c d pre : BlockId} {i j t : InstrId}
  {is as : List InstrId}

theorem Placed.unique (h : Placed m f) (hb : b ∈ (m.func f).layout) (hc : c ∈ (m.func f).layout)
    (hib : i ∈ (m.block b).instrs) (hic : i ∈ (m.block c).instrs) : b = c :=
  Option.some.inj ((h.parent b hb i hib).symm.trans (h.parent c hc i hic))

/-! A new preheader. -/

theorem Grown.placed (hG : Grown m n f pre) (hP : Placed m f) (hnew : pre ∉ (m.func f).layout) :
    Placed n f := by
  have hcases : ∀ {b}, b ∈ (n.func f).layout → b = pre ∨ b ∈ (m.func f).layout ∧
      (n.block b).instrs = (m.block b).instrs := by
    intro b hb
    rcases (hG.layout f b).mp hb with hb | ⟨_,hb⟩
    · refine .inr ⟨hb,hG.lines b ?_⟩
      rintro rfl
      exact hnew hb
    · exact .inl hb
  refine ⟨fun b hb => ?_,fun b hb i hi => ?_⟩
  · rcases hcases hb with rfl | ⟨hb,hlines⟩
    · exact hG.nodup
    · exact hlines ▸ hP.nodup b hb
  · rcases hcases hb with rfl | ⟨hb,hlines⟩
    · exact (hG.added i hi).2
    · exact hG.parent i b (hP.parent b hb i (hlines ▸ hi))

theorem Grown.samePlain (hG : Grown m n f pre) : SamePlain m n := by
  refine ⟨fun i hi => ?_,hG.literal⟩
  rw [op_eq_code,operands_eq_code,hG.plain i hi]
  exact ⟨rfl,rfl⟩

theorem Grown.alike (hG : Grown m n f pre) (hf : (m.func f).layout ≠ [])
    (hnew : ∀ g ∈ m.funcs, pre ∉ (m.func g).layout) : Alike m n := by
  refine ⟨hG.samePlain,hG.funcs,fun g => ?_,fun g hg i hi => ?_⟩
  · simp only [eq_nil_iff_forall_not_mem,hG.layout,not_or]
    refine ⟨fun h b => (h b).1,fun h b => ⟨h b,?_⟩⟩
    rintro ⟨rfl,_⟩
    exact hf (eq_nil_iff_forall_not_mem.mpr h)
  · rw [mem_instrs_iff,mem_instrs_iff]
    constructor
    · rintro ⟨b,hb,hib⟩
      have hbp : b ≠ pre := by
        rintro rfl
        exact (hG.added i hib).1 (hG.plain_iff.mpr hi)
      exact ⟨b,((hG.layout g b).mp hb).resolve_right fun hx => hbp hx.2,hG.lines b hbp ▸ hib⟩
    · rintro ⟨b,hb,hib⟩
      refine ⟨b,(hG.layout g b).mpr (.inl hb),?_⟩
      rwa [hG.lines b]
      rintro rfl
      exact hnew g hg hb

/-! Instructions that leave a loop. -/

/-- The instructions `is` of the function have moved to `pre`. -/
structure Shifted (m n : Module) (f : FuncId) (pre : BlockId) (is : List InstrId) : Prop where
  flow : SameFlow m n
  code : ∀ i, (n.instr i).op = (m.instr i).op ∧ n.operands i = m.operands i
  literal : n.code.literal = m.code.literal
  funcs : n.funcs = m.funcs
  placed : Placed n f
  target : ∀ j, j ∈ (n.block pre).instrs ↔ j ∈ (m.block pre).instrs ∨ j ∈ is
  lines : ∀ d ∈ (m.func f).layout, d ≠ pre → ∀ j, j ∈ (n.block d).instrs ↔
    j ∈ (m.block d).instrs ∧ j ∉ is
  others : ∀ d, d.func ≠ f → (n.block d).instrs = (m.block d).instrs

theorem Moved.shifted (hM : Moved m n i b pre as t) (hP : Placed m f) (hb : b ∈ (m.func f).layout)
    (hp : pre ∈ (m.func f).layout) (hi : i ∈ (m.block b).instrs)
    (hs : (m.block pre).instrs = as ++ [t]) (hne : b ≠ pre)
    (howned : ∀ b ∈ (m.func f).layout, b.func = f) : Shifted m n f pre [i] := by
  have hnd := hP.nodup b hb
  have hplace : ∀ {d}, d ∈ (m.func f).layout → i ∈ (m.block d).instrs → d = b :=
    fun hd hid => hP.unique hd hb hid hi
  have hlines : ∀ d ∈ (m.func f).layout, d ≠ pre → ∀ j, j ∈ (n.block d).instrs ↔
      j ∈ (m.block d).instrs ∧ j ∉ [i] := by
    intro d hd hdp j
    rw [mem_singleton]
    by_cases hdb : d = b
    · rw [hdb,hM.source,hnd.mem_erase_iff,and_comm]
    · rw [hM.others d hdb hdp]
      refine (and_iff_left_of_imp ?_).symm
      rintro hj rfl
      exact hdb (hplace hd hj)
  refine ⟨hM.flow,fun j => ⟨(hM.op_eq j).1,(hM.op_eq j).2.2⟩,hM.literal,hM.funcs,
    ⟨fun d hd => ?_,fun d hd j hj => ?_⟩,fun j => ?_,
    hlines,fun d hd => ?_⟩
  · rw [hM.flow.layout] at hd
    by_cases hdp : d = pre
    · rw [hdp,hM.target,nodup_middle,nodup_cons,← hs]
      exact ⟨fun hip => hne (hplace hp hip).symm,hP.nodup pre hp⟩
    · by_cases hdb : d = b
      · rw [hdb,hM.source]
        exact hnd.erase i
      · rw [hM.others d hdb hdp]
        exact hP.nodup d hd
  · rw [hM.flow.layout] at hd
    rw [hM.parent_eq]
    by_cases hij : i = j
    · rw [if_pos hij]
      by_contra hdp
      have := (hlines d hd (fun heq => hdp (by rw [heq])) j).mp hj
      exact this.2 (by simp [hij])
    · rw [if_neg hij]
      exact hP.parent d hd j ((hM.mem_iff hs hnd (Ne.symm hij)).mp hj)
  · rw [hM.target,hs]
    simp only [mem_append,mem_cons,not_mem_nil,or_false]
    tauto
  · have hdb : d ≠ b := by
      rintro rfl
      exact hd (howned d hb)
    have hdp : d ≠ pre := by
      rintro rfl
      exact hd (howned d hp)
    exact hM.others d hdb hdp

namespace Shifted

theorem nil (hP : Placed m f) : Shifted m m f pre [] :=
  ⟨.refl m,fun _ => ⟨rfl,rfl⟩,rfl,rfl,hP,by simp,by simp,fun _ _ => rfl⟩

theorem trans {js : List InstrId} (h : Shifted m n f pre is) (h' : Shifted n k f pre js) :
    Shifted m k f pre (is ++ js) := by
  refine ⟨h.flow.trans h'.flow,
    fun i => ⟨(h'.code i).1.trans (h.code i).1,(h'.code i).2.trans (h.code i).2⟩,
    h'.literal.trans h.literal,h'.funcs.trans h.funcs,h'.placed,fun j => ?_,fun d hd hdp j => ?_,
    fun d hd => (h'.others d hd).trans (h.others d hd)⟩
  · rw [h'.target,h.target,mem_append,or_assoc]
  · rw [h'.lines d ((h.flow.layout f).symm ▸ hd) hdp,h.lines d hd hdp,mem_append,not_or,and_assoc]

theorem alike (h : Shifted m n f pre is) (hp : pre ∈ (m.func f).layout)
    (hf : ∀ i ∈ is, i ∈ m.instrs f) (howned : ∀ g ∈ m.funcs, ∀ b ∈ (m.func g).layout, b.func = g) :
    Alike m n := by
  refine ⟨⟨fun i _ => h.code i,h.literal⟩,h.funcs,fun g => by rw [h.flow.layout],fun g hg i _ => ?_⟩
  rw [mem_instrs_iff,mem_instrs_iff,h.flow.layout]
  by_cases hgf : g = f
  · subst hgf
    constructor
    · rintro ⟨b,hb,hib⟩
      by_cases hbp : b = pre
      · subst hbp
        exact ((h.target i).mp hib).elim (fun hi => ⟨b,hb,hi⟩) fun hi => mem_instrs_iff.mp (hf i hi)
      · exact ⟨b,hb,((h.lines b hb hbp i).mp hib).1⟩
    · rintro ⟨b,hb,hib⟩
      by_cases hi : i ∈ is
      · exact ⟨pre,hp,(h.target i).mpr (.inr hi)⟩
      · by_cases hbp : b = pre
        · exact ⟨pre,hp,(h.target i).mpr (.inl (hbp ▸ hib))⟩
        · exact ⟨b,hb,(h.lines b hb hbp i).mpr ⟨hib,hi⟩⟩
  · exact exists_congr fun b => and_congr_right fun hb => by
      rw [h.others b (howned g hg b hb ▸ hgf)]

end Shifted

theorem shifted_moves (hP : Placed m f) (hp : pre ∈ (m.func f).layout) (ht : m.Ends pre t)
    (hnd : is.Nodup) (his : ∀ i ∈ is, (m.instr i).op.isTerminator = false ∧
      ∃ b ∈ (m.func f).layout, b ≠ pre ∧ i ∈ (m.block b).instrs)
    (howned : ∀ b ∈ (m.func f).layout, b.func = f) :
    Shifted m (is.foldl (fun m i => m.moveBefore i t) m) f pre is := by
  induction is generalizing m with
  | nil => exact .nil hP
  | cons i is ih =>
    obtain ⟨hi,hnd⟩ := nodup_cons.mp hnd
    obtain ⟨⟨hop,b,hb,hbp,hib⟩,his⟩ := forall_mem_cons.mp his
    obtain ⟨as,hs,_⟩ := ht.last
    have h1 := (moved_moveBefore hib (hP.parent b hb i hib) hop ht hs hbp).shifted hP hb hp hib
      hs hbp howned
    rw [foldl_cons]
    generalize m.moveBefore i t = n at *
    refine h1.trans (ih h1.placed ((h1.flow.layout f).symm ▸ hp) (h1.flow.ends pre t ht).1 hnd
      (fun j hj => ?_) ?_)
    · obtain ⟨hjop,c,hc,hcp,hjc⟩ := his j hj
      refine ⟨h1.flow.plain j hjop,c,(h1.flow.layout f).symm ▸ hc,hcp,
        (h1.lines c hc hcp j).mpr ⟨hjc,?_⟩⟩
      rw [mem_singleton]
      rintro rfl
      exact hi hj
    · rw [h1.flow.layout]
      exact howned

end

/-! The run. -/

/-- The loops `done` have had their turn and are exhausted. -/
structure Progress (p : Purity) (f : FuncId) (e : BlockId) (s : State)
    (done : List Nat) : Prop where
  kept : Kept f e s
  placed : Placed s.module f
  owned : ∀ g ∈ s.module.funcs, ∀ b ∈ (s.module.func g).layout, b.func = g
  grounded : s.module.Grounded
  fresh : ∀ k, k < s.forest.loops.length → k ∉ done → (s.forest.loop k).preheader = none
  exhausted : ∀ k ∈ done, k < s.forest.loops.length →
    Exhausted s.module p (bodyOf s.module (s.forest.loop k))

section
variable {p : Purity} {f : FuncId} {e e' pre : BlockId} {s s' : State} {done : List Nat} {j k : Nat}
  {i : InstrId}

theorem Kept.mem_bodyOf (h : Kept f e s) (hk : k < s.forest.loops.length) :
    i ∈ bodyOf s.module (s.forest.loop k) ↔
    ∃ b ∈ (s.module.func f).layout, b ∈ (s.forest.loop k).blocks ∧
      i ∈ (s.module.block b).instrs := by
  have hspans := h.forest.spans k hk
  rw [Hoisting.mem_bodyOf]
  exact ⟨fun ⟨b,hb,hi⟩ =>
    ⟨b,h.flow.mem_layout (((hspans.blocks b).mp hb).reached hspans.heads.reached),hb,hi⟩,
    fun ⟨b,_,hb,hi⟩ => ⟨b,hb,hi⟩⟩

/-- Hoisting takes nothing from a loop that has had its turn, unless that loop is around. -/
theorem Progress.avoids (h : Progress p f e s done) (hj : j ∈ done)
    (hjl : j < s.forest.loops.length) (hk : k < s.forest.loops.length) (hjk : j ≠ k)
    (hanc : j ∉ s.forest.ancestors k) :
    ∀ i ∈ invariants s.module p (s.forest.loop k), i ∉ bodyOf s.module (s.forest.loop j) := by
  have hspans := h.kept.forest.spans k hk
  have hspans' := h.kept.forest.spans j hjl
  by_cases hin : s.module.InLoop e (s.forest.loop k).header (s.forest.loop j).header
  · -- it is inside
    refine (ordered_invariants _ _ _).avoids (h.exhausted j hj hjl) h.grounded fun i hi => ?_
    obtain ⟨b,hb,hib⟩ := Hoisting.mem_bodyOf.mp hi
    exact Hoisting.mem_bodyOf.mpr
      ⟨b,(hspans.blocks b).mpr (hin.trans ((hspans'.blocks b).mp hb) hspans.heads.reached),hib⟩
  · -- it is beside
    intro i hi hij
    obtain ⟨b,hbl,hb,hib⟩ := (h.kept.mem_bodyOf hk).mp ((ordered_invariants _ _ _).subset hi)
    obtain ⟨c,hcl,hc,hic⟩ := (h.kept.mem_bodyOf hjl).mp hij
    obtain rfl := h.placed.unique hbl hcl hib hic
    have hbin := (hspans.blocks b).mp hb
    rcases ((hspans'.blocks b).mp hc).nested hbin (hbin.reached hspans.heads.reached) with hx | hx
    · exact hanc ((h.kept.forest.mem_ancestors_iff h.kept.flow.toFlowGraph hk).mpr ⟨hjl,hjk,hx⟩)
    · exact hin hx

theorem Progress.runOnLoop (h : Progress p f e s done) (hk : k ∉ done)
    (hdone : ∀ j ∈ done, j ∉ s.forest.ancestors k) (hf : f ∈ s.module.funcs) :
    ∃ e', Progress p f e' (runOnLoop p f s k) (k :: done) ∧
      Alike s.module (runOnLoop p f s k).module ∧
      s.forest.SameShape (runOnLoop p f s k).forest := by
  rcases h.kept.runOnLoop_cases p k with
    ⟨hnil,hrun⟩ | ⟨hkl,s',pre,e',t,heq,h',hshape,_,ht,hplain,hrun⟩
  · rw [hrun]
    refine ⟨e,{ h with
      fresh := fun j hj hjd => h.fresh j hj fun hd => hjd (mem_cons_of_mem _ hd)
      exhausted := fun j hj hjl => ?_ },
      .refl _,.refl _⟩
    rcases mem_cons.mp hj with rfl | hj
    · exact exhausted_iff.mpr hnil
    · exact h.exhausted j hj hjl
  · have hmake : makePreheader f s k = (s',some pre) := by
      rw [preheader,h.fresh k hkl hk] at heq
      exact heq
    obtain ⟨hG,hpf,hnew,hforest⟩ := h.kept.grown hkl hmake
    have hspans := h.kept.forest.spans k hkl
    have hnewAll : ∀ g ∈ s.module.funcs, pre ∉ (s.module.func g).layout := by
      intro g hg hp
      obtain rfl := (h.owned g hg pre hp).symm.trans hpf
      exact hnew hp
    have hpl : pre ∈ (s'.module.func f).layout := (hG.layout f pre).mpr (.inr ⟨rfl,rfl⟩)
    have hfound : ∀ i ∈ invariants s.module p (s.forest.loop k),
      (s'.module.instr i).op.isTerminator = false ∧
        ∃ b ∈ (s'.module.func f).layout, b ≠ pre ∧ i ∈ (s'.module.block b).instrs := by
      intro i hi
      obtain ⟨b,hbl,_,hib⟩ := (h.kept.mem_bodyOf hkl).mp ((ordered_invariants _ _ _).subset hi)
      have hbp : b ≠ pre := by
        rintro rfl
        exact hnew hbl
      exact ⟨hplain i hi,b,(hG.layout f b).mpr (.inl hbl),hbp,(hG.lines b hbp).symm ▸ hib⟩
    have hS := shifted_moves (hG.placed h.placed hnew) hpl ht
      (ordered_invariants _ _ _).nodup hfound h'.flow.owned
    have howned : ∀ g ∈ s'.module.funcs, ∀ b ∈ (s'.module.func g).layout, b.func = g := by
      intro g hg b hb
      rcases (hG.layout g b).mp hb with hb | ⟨rfl,rfl⟩
      · exact h.owned g (hG.funcs ▸ hg) b hb
      · exact hpf
    have halike : Alike s.module s'.module := hG.alike (fun hl => by
      have := h.kept.flow.entry_mem
      rw [hl] at this
      cases this) hnewAll
    rw [hrun]
    generalize (invariants s.module p (s.forest.loop k)).foldl
      (fun m i => m.moveBefore i t) s'.module = n at hS ⊢
    have halike' : Alike s'.module n := hS.alike hpl (fun i hi => by
      obtain ⟨_,b,hb,_,hib⟩ := hfound i hi
      exact mem_instrs_iff.mpr ⟨b,hb,hib⟩) howned
    have hall := halike.trans halike'
    -- what is left in the loops that are not around
    have hbody : ∀ {j}, j < s.forest.loops.length → j ∉ s.forest.ancestors k →
      ∀ i, i ∈ bodyOf n (s'.forest.loop j) ↔
        i ∈ bodyOf s.module (s.forest.loop j) ∧ i ∉ invariants s.module p (s.forest.loop k) := by
      intro j hj hanc i
      have hblocks : ∀ b, b ∈ (s'.forest.loop j).blocks ↔ b ∈ (s.forest.loop j).blocks := fun b =>
        ((hforest j hj).2 b).trans (or_iff_left fun hb => hanc hb.2)
      have hlines : ∀ b ∈ (s.forest.loop j).blocks, i ∈ (n.block b).instrs ↔
          i ∈ (s.module.block b).instrs ∧ i ∉ invariants s.module p (s.forest.loop k) := by
        intro b hb
        have hspans := h.kept.forest.spans j hj
        have hbl := h.kept.flow.mem_layout (((hspans.blocks b).mp hb).reached hspans.heads.reached)
        have hbp : b ≠ pre := by
          rintro rfl
          exact hnew hbl
        rw [hS.lines b ((hG.layout f b).mpr (.inl hbl)) hbp,hG.lines b hbp]
      rw [Hoisting.mem_bodyOf,Hoisting.mem_bodyOf]
      constructor
      · grind
      · grind
    refine ⟨e',⟨h'.of_same hS.flow _,hS.placed,fun g hg b hb => ?_,h.grounded.congr hall.gep,
      fun j hj hjd => ?_,fun j hj hjl => ?_⟩,
      hall,hshape⟩
    · rw [hS.flow.layout] at hb
      exact howned g (hS.funcs ▸ hg) b hb
    · dsimp only at hj ⊢
      rw [hshape.length] at hj
      rw [mem_cons,not_or] at hjd
      obtain ⟨hjk,hjd⟩ := hjd
      rw [(hforest j hj).1,if_neg (Ne.symm hjk)]
      exact h.fresh j hj hjd
    · dsimp only at hjl ⊢
      rw [hshape.length] at hjl
      rcases mem_cons.mp hj with rfl | hjd
      · refine exhausted_of_left hall.toSamePlain h.grounded (hbody hjl fun hanc => ?_)
        exact ((h.kept.forest.mem_ancestors_iff h.kept.flow.toFlowGraph hjl).mp hanc).ne rfl
      · have hjk : j ≠ k := by
          rintro rfl
          exact hk hjd
        refine (h.exhausted j hjd hjl).congr hall.toSamePlain h.grounded fun i =>
          (hbody hjl (hdone j hjd) i).trans ?_
        exact and_iff_left_of_imp fun hi hif => h.avoids hjd hjl hkl hjk (hdone j hjd) i hif hi

theorem Progress.run (h : Progress p f e s done) (hf : f ∈ s.module.funcs) (ks : List Nat)
    (hlt : ∀ k ∈ ks, k < s.forest.loops.length)
      (hks : ks.Pairwise fun i j => i ≠ j ∧ i ∉ s.forest.ancestors j)
    (hdone : ∀ k ∈ ks, k ∉ done ∧ ∀ j ∈ done, j ∉ s.forest.ancestors k) :
    ∃ e' done', Progress p f e' (ks.foldl (Hoisting.runOnLoop p f) s) done' ∧
      (∀ k, k ∈ done ∨ k ∈ ks → k ∈ done') ∧
      Alike s.module (ks.foldl (Hoisting.runOnLoop p f) s).module ∧
      s.forest.SameShape (ks.foldl (Hoisting.runOnLoop p f) s).forest := by
  induction ks generalizing e s done with
  | nil => exact ⟨e,done,h,by simp,.refl _,.refl _⟩
  | cons k ks ih =>
    obtain ⟨hk,hks⟩ := pairwise_cons.mp hks
    obtain ⟨⟨hkd,hka⟩,hdone⟩ := forall_mem_cons.mp hdone
    obtain ⟨e1,h1,ha1,hs1⟩ := h.runOnLoop hkd hka hf
    have hanc : ∀ j, j < s.forest.loops.length →
        (Hoisting.runOnLoop p f s k).forest.ancestors j = s.forest.ancestors j := fun j hj =>
      hs1.ancestors (fun i hi x hx => h.kept.forest.parent_lt hi hx) hj
    have hlt' := (forall_mem_cons.mp hlt).2
    rw [foldl_cons]
    obtain ⟨e2,done2,h2,hmem,ha2,hs2⟩ :=
      ih h1 (ha1.funcs.symm ▸ hf) (fun j hj => hs1.length.symm ▸ hlt' j hj)
      (hks.imp_of_mem fun {i j} _ hj hij => by rwa [hanc j (hlt' j hj)]) fun j hj => by
        rw [hanc j (hlt' j hj)]
        obtain ⟨hjd,hja⟩ := hdone j hj
        exact ⟨by simp [Ne.symm (hk j hj).1,hjd],forall_mem_cons.mpr ⟨(hk j hj).2,hja⟩⟩
    refine ⟨e2,done2,h2,fun j hj => hmem j ?_,ha1.trans ha2,hs1.trans hs2⟩
    rw [mem_cons] at hj ⊢
    tauto

theorem run_of_exhausted {m : Module} {t : Forest}
    (h : ∀ k, k < t.loops.length → Exhausted m p (bodyOf m (t.loop k))) :
    run m f t p = ⟨m,t,⟨0,0⟩,none⟩ := by
  refine foldl_fixed' (fun k => ?_) _
  have hnil : invariants m p (t.loop k) = [] := by
    refine exhausted_iff.mp ?_
    by_cases hk : k < t.loops.length
    · exact h k hk
    · have hnone : t.loop k = default := by
        rw [Forest.loop,getD_eq_getElem?_getD,getElem?_eq_none (Nat.not_lt.mp hk),Option.getD_none]
      rw [hnone]
      exact fun i hi => absurd hi not_mem_nil
  rw [Hoisting.runOnLoop,hnil]
  rfl

end

/-- Hoisting is complete: a second time, with all analyses made anew, nothing is hoisted, no
preheader is made and the module stays as it is. -/
theorem runFresh_idempotent {m : Module} (hm : Wired m) (hv : ∀ g ∈ m.funcs, m.verify g = .ok ())
    (hground : m.Grounded) {f : FuncId} (hf : f ∈ m.funcs)
    (hnd : ∀ b ∈ (m.func f).layout, (m.block b).instrs.Nodup) :
    (runFresh m f m.purity).failure = none ∧
      let n := (runFresh m f m.purity).module
      (runFresh n f n.purity).module = n ∧ (runFresh n f n.purity).stats = ⟨0,0⟩ ∧
        (runFresh n f n.purity).failure = none := by
  cases he : (m.func f).layout.head? with
  | none =>
    rw [runFresh_of_empty he]
    dsimp only
    rw [runFresh_of_empty he]
    exact ⟨rfl,rfl,rfl,rfl⟩
  | some e =>
    have hC := hm.controlFlow hv hf he
    obtain ⟨hmatches,hnone⟩ := hC.matches_findLoops
    have hstart : Progress m.purity f e ⟨m,m.findLoops f (m.dominators f),⟨0,0⟩,none⟩ [] := by
      refine ⟨.start hC,⟨hnd,fun b hb i hi => ?_⟩,
        fun g hg b hb => (blockChecked (hv g hg) hb).owned,hground,fun k hk _ => hnone k hk,by simp⟩
      obtain ⟨xs,ys,hs⟩ := List.append_of_mem hi
      exact ((blockChecked (hv f hf) hb).instr xs i ys hs).parent
    obtain ⟨hmem,hord⟩ := hmatches.lists_postorder hC.toFlowGraph (Forest.indexed_ofLoops _)
    obtain ⟨e',done,h,hdone,halike,hshape⟩ :=
      hstart.run hf (m.findLoops f (m.dominators f)).postorder (fun k hk => (hmem k).mp hk)
      (hord.imp_of_mem fun {i j} _ hj hij => ⟨hij.1,fun hanc =>
        hij.2 ((hmatches.mem_ancestors_iff hC.toFlowGraph ((hmem j).mp hj)).mp hanc)⟩) (by simp)
    have hrun : (m.findLoops f (m.dominators f)).postorder.foldl (Hoisting.runOnLoop m.purity f)
      ⟨m,m.findLoops f (m.dominators f),⟨0,0⟩,none⟩ = runFresh m f m.purity := rfl
    rw [hrun] at h halike hshape
    refine ⟨h.kept.failure,?_⟩
    generalize runFresh m f m.purity = s at *
    intro n
    have hpure : n.purity = m.purity := halike.purity_eq hground
    have hagrees := h.kept.forest.agrees h.kept.flow.matches_findLoops.1 h.kept.flow.toFlowGraph
    have hlen : s.forest.loops.length = (n.findLoops f (n.dominators f)).loops.length := by
      simpa using congrArg List.length hagrees.headers
    have hsecond : runFresh n f n.purity = ⟨n,n.findLoops f (n.dominators f),⟨0,0⟩,none⟩ := by
      refine run_of_exhausted fun k hk => ?_
      rw [← hlen] at hk
      rw [hpure]
      refine (h.exhausted k (hdone k (Or.inr ((hmem k).mpr (hshape.length ▸ hk)))) hk).congr
        (.refl n) h.grounded fun i => ?_
      rw [Hoisting.mem_bodyOf,Hoisting.mem_bodyOf]
      exact exists_congr fun b => and_congr_left fun _ => (hagrees.blocks k hk b).symm
    rw [hsecond]
    exact ⟨rfl,rfl,rfl⟩

/-- A loop around a loop; the inner one reads an element of an array of arrays, the outer one an
element of the array. -/
def addressed : Module :=
  let b (n : Nat) : BlockId := ⟨0,n⟩
  { name := "addressed", globals := [0], funcs := [0], globalTable := ⟨#[⟨"a",.array 2 .i32,[0]⟩]⟩
    funcTable := ⟨#[⟨"main",.i32,[],[b 0,b 1,b 2,b 3],⟨#[
      ⟨"outer",[0,1],[b 2],[b 1],[5]⟩,⟨"inner",[2,3,4],[b 0,b 1],[b 1,b 2],[1,4]⟩,
      ⟨"turn",[5],[b 1],[b 0,b 3],[4]⟩,⟨"end",[6],[b 2],[],[5]⟩]⟩,3,.empty,[]⟩]⟩
    instrTable := ⟨#[
      ⟨.gep,.pointer .i32,some 0,none,[.global 0,.literal 0,.literal 1],some (b 0),[2]⟩,
      ⟨.br,.void,none,none,[.block (b 1)],some (b 0),[]⟩,
      ⟨.gep,.pointer .i32,some 1,none,[.instr 0,.literal 1],some (b 1),[3]⟩,
      ⟨.load,.i32,some 2,none,[.instr 2],some (b 1),[]⟩,
      ⟨.br,.void,none,none,[.literal 0,.block (b 1),.block (b 2)],some (b 1),[]⟩,
      ⟨.br,.void,none,none,[.literal 0,.block (b 0),.block (b 3)],some (b 2),[]⟩,
      ⟨.ret,.void,none,none,[.literal 0],some (b 3),[]⟩]⟩
    literalTable := ⟨#[⟨.int 0,[0,4,5,6]⟩,⟨.int 1,[0,2]⟩]⟩ }

theorem runFresh_idempotent_addressed :
    Wired addressed ∧ (∀ g ∈ addressed.funcs, addressed.verify g = .ok ()) ∧ addressed.Grounded ∧
      (runFresh addressed 0 addressed.purity).stats = ⟨5,2⟩ ∧
      let n := (runFresh addressed 0 addressed.purity).module
      (runFresh n 0 n.purity).module = n ∧ (runFresh n 0 n.purity).stats = ⟨0,0⟩ := by
  have hm : Wired addressed := ⟨by decide,by decide,by decide,by decide⟩
  have hv : ∀ g ∈ addressed.funcs, addressed.verify g = .ok () :=
    fun g hg => List.mem_singleton.mp hg ▸ rfl
  have hground : addressed.Grounded := grounded_of_lt (by decide)
  have h := runFresh_idempotent hm hv hground (List.mem_singleton_self 0) (by decide)
  refine ⟨hm,hv,hground,?_,h.2.1,h.2.2.1⟩
  rw [runFresh_of_few (by decide +kernel)]
  decide +kernel

end Hoisting
end CMinusF
