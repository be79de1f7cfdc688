import CMinusF.Proofs.Hoisting.Invariants
import CMinusF.Proofs.Hoisting.Preheader

/-! Hoisting keeps the forest of loops up to date: after every step it is the forest that the
analysis would find. -/
namespace CMinusF
open CMinusF.Module List
variable {m n : Module} {f : FuncId} {e pre e' : BlockId} {k : Nat} {bs : List BlockId}
  {u : InstrId} {s : State}

/-! Updates of a forest. -/

theorem Loop.addBlock_addBlock (l : Loop) (b : BlockId) :
    (l.addBlock b).addBlock b = l.addBlock b := by
  unfold Loop.addBlock
  split
  · rfl
  · simp

namespace Forest
variable {t t' : Forest} {i j : Nat}

theorem length_modifyLoop (t : Forest) (j : Nat) (g : Loop → Loop) :
    (t.modifyLoop j g).loops.length = t.loops.length := by
  simp [modifyLoop]

theorem loop_modifyLoop (hi : i < t.loops.length) (j : Nat) (g : Loop → Loop) :
    (t.modifyLoop j g).loop i = if j = i then g (t.loop i) else t.loop i := by
  simp only [loop,modifyLoop,getD_eq_getElem?_getD,getElem?_modify,getElem?_eq_getElem hi]
  split <;> rfl

theorem loop_foldl_modifyLoop {g : Loop → Loop} (hg : ∀ l, g (g l) = g l) (js : List Nat)
    (t : Forest) (hi : i < t.loops.length) :
    (js.foldl (fun t j => t.modifyLoop j g) t).loops.length = t.loops.length ∧
      (js.foldl (fun t j => t.modifyLoop j g) t).loop i = if i ∈ js then g (t.loop i)
        else t.loop i := by
  induction js generalizing t with
  | nil => exact ⟨rfl,(if_neg not_mem_nil).symm⟩
  | cons j js ih =>
    obtain ⟨h1,h2⟩ := ih (t.modifyLoop j g) (by rwa [length_modifyLoop])
    refine ⟨h1.trans (length_modifyLoop t j g),h2.trans ?_⟩
    rw [loop_modifyLoop hi]
    by_cases hij : j = i
    · subst hij
      simp only [↓reduceIte,hg,ite_self,mem_cons,true_or]
    · simp only [hij,↓reduceIte,mem_cons,Ne.symm hij,false_or]

/-- What a forest says of how its loops nest. -/
structure SameShape (t t' : Forest) : Prop where
  length : t'.loops.length = t.loops.length
  header : ∀ i, i < t.loops.length → (t'.loop i).header = (t.loop i).header
  parent : ∀ i, i < t.loops.length → (t'.loop i).parent = (t.loop i).parent

namespace SameShape

theorem refl (t : Forest) : SameShape t t := ⟨rfl,fun _ _ => rfl,fun _ _ => rfl⟩

theorem trans {t'' : Forest} (h : SameShape t t') (h' : SameShape t' t'') : SameShape t t'' :=
  ⟨h'.length.trans h.length,fun i hi => (h'.header i (h.length.symm ▸ hi)).trans (h.header i hi),
    fun i hi => (h'.parent i (h.length.symm ▸ hi)).trans (h.parent i hi)⟩

theorem map_header (h : SameShape t t') : t'.loops.map (·.header) = t.loops.map (·.header) := by
  refine ext_getElem (by simp [h.length]) fun i h1 h2 => ?_
  have hi : i < t.loops.length := by simpa using h2
  have := h.header i hi
  simpa [loop,getElem?_eq_getElem hi,getElem?_eq_getElem (h.length ▸ hi)] using this

theorem around (h : SameShape t t')
    (hp : ∀ i, i < t.loops.length → ∀ k, (t.loop i).parent = some k → k < t.loops.length)
    (fuel : Nat) (hi : i < t.loops.length) : t'.around fuel i = t.around fuel i := by
  induction fuel generalizing i with
  | zero => rfl
  | succ fuel ih =>
    rw [Forest.around,Forest.around,h.parent i hi]
    cases hk : (t.loop i).parent with
    | none => rfl
    | some k => exact congrArg (k :: ·) (ih (hp i hi k hk))

theorem ancestors (h : SameShape t t')
    (hp : ∀ i, i < t.loops.length → ∀ k, (t.loop i).parent = some k → k < t.loops.length)
    (hi : i < t.loops.length) : t'.ancestors i = t.ancestors i := by
  rw [Forest.ancestors,h.length]
  exact h.around hp _ hi

end SameShape

theorem Matches.of_same (h : t.Matches m f e) (hs : SameFlow m n) : t.Matches n f e := by
  have hin := inLoop_congr hs.succs
  have hheads := heads_congr hs.succs
  refine ⟨fun i hi => ?_,?_,fun i hi k hk => ?_,fun i hi hk j hj => ?_⟩
  · obtain ⟨h1,h2,h3⟩ := h.spans i hi
    exact ⟨hheads ▸ h1,hin ▸ h2,hin ▸ h3⟩
  · rw [hs.layout,hheads]
    exact h.headers
  · obtain ⟨h1,h2⟩ := h.parent i hi k hk
    exact ⟨⟨h1.lt,h1.ne,hin ▸ h1.inLoop⟩,fun j hj => (h2 j ⟨hj.lt,hj.ne,hin ▸ hj.inLoop⟩).imp_right
      fun h => ⟨h.lt,h.ne,hin ▸ h.inLoop⟩⟩
  · exact h.outermost i hi hk j ⟨hj.lt,hj.ne,hin ▸ hj.inLoop⟩

/-- The forest after a loop has got a preheader: the new block belongs to the loops around. -/
def enlist (t : Forest) (k : Nat) (pre : BlockId) : Forest :=
  ((t.modifyLoop k fun l => { l with preheader := some pre }).ancestors k).foldl
    (fun t j => t.modifyLoop j (·.addBlock pre))
      (t.modifyLoop k fun l => { l with preheader := some pre })

section

theorem Matches.parent_lt (h : t.Matches m f e) (hi : i < t.loops.length)
    (hk : (t.loop i).parent = some k) :
    k < t.loops.length := (h.parent i hi k hk).1.lt

theorem Matches.loop_enlist (h : t.Matches m f e) (hk : k < t.loops.length)
    (hi : i < t.loops.length) :
    (t.enlist k pre).loops.length = t.loops.length ∧ (t.enlist k pre).loop i =
      let l := if k = i then { t.loop i with preheader := some pre } else t.loop i
      if i ∈ t.ancestors k then l.addBlock pre else l := by
  have hshape : SameShape t (t.modifyLoop k fun l => { l with preheader := some pre }) := by
    refine ⟨length_modifyLoop ..,fun i hi => ?_,fun i hi => ?_⟩
    · rw [loop_modifyLoop hi]
      split <;> rfl
    · rw [loop_modifyLoop hi]
      split <;> rfl
  have hlen := length_modifyLoop t k fun l => { l with preheader := some pre }
  obtain ⟨h1,h2⟩ := loop_foldl_modifyLoop (g := (·.addBlock pre))
    (fun l => Loop.addBlock_addBlock l pre)
    ((t.modifyLoop k fun l => { l with preheader := some pre }).ancestors k)
    (t.modifyLoop k fun l => { l with preheader := some pre }) (by rwa [hlen])
  refine ⟨h1.trans hlen,h2.trans ?_⟩
  rw [hshape.ancestors (fun i hi k hk => h.parent_lt hi hk) hk,loop_modifyLoop hi]

/-- The new block is entered into the loops around and nothing else is changed. -/
theorem Matches.enlist_loop (h : t.Matches m f e) (hk : k < t.loops.length)
    (hi : i < t.loops.length) :
    ((t.enlist k pre).loop i).header = (t.loop i).header ∧
    ((t.enlist k pre).loop i).parent = (t.loop i).parent ∧
    ((t.enlist k pre).loop i).preheader = (if k = i then some pre else (t.loop i).preheader) ∧
    (pre.number ∉ (t.loop i).numbers →
      (∀ x, x ∈ ((t.enlist k pre).loop i).numbers ↔ x ∈ (t.loop i).numbers ∨ x = pre.number ∧
        i ∈ t.ancestors k) ∧
      ∀ b, b ∈ ((t.enlist k pre).loop i).blocks ↔ b ∈ (t.loop i).blocks ∨ b = pre ∧
        i ∈ t.ancestors k) := by
  rw [(h.loop_enlist hk hi).2]
  dsimp only
  generalize hl : (if k = i then { t.loop i with preheader := some pre } else t.loop i) = l
  have hsame : l.header = (t.loop i).header ∧ l.parent = (t.loop i).parent ∧
      l.preheader = (if k = i then some pre else (t.loop i).preheader) ∧
        l.numbers = (t.loop i).numbers ∧
      l.blocks = (t.loop i).blocks := by
    subst hl
    split <;> exact ⟨rfl,rfl,rfl,rfl,rfl⟩
  obtain ⟨h1,h2,h3,h4,h5⟩ := hsame
  rw [← h1,← h2,← h3,← h4,← h5]
  split
  · rename_i hia
    have hadd : (l.addBlock pre).header = l.header ∧ (l.addBlock pre).parent = l.parent ∧
        (l.addBlock pre).preheader = l.preheader := by
      unfold Loop.addBlock
      split <;> exact ⟨rfl,rfl,rfl⟩
    refine ⟨hadd.1,hadd.2.1,hadd.2.2,fun hpre => ?_⟩
    simp [Loop.addBlock,hpre,hia,or_comm]
  · rename_i hia
    exact ⟨rfl,rfl,rfl,fun _ => by simp [hia]⟩

theorem Matches.sameShape_enlist (h : t.Matches m f e) (hk : k < t.loops.length) (pre : BlockId) :
    SameShape t (t.enlist k pre) :=
  ⟨(h.loop_enlist hk hk).1,fun _ hi => (h.enlist_loop hk hi).1,
    fun _ hi => (h.enlist_loop hk hi).2.1⟩

theorem Matches.number_notMem (h : t.Matches m f e) (hC : ControlFlow m f e) {b : BlockId}
    (hF : Hoisting.Fronted m n f bs b pre) (hi : i < t.loops.length) :
    pre.number ∉ (t.loop i).numbers := by
  obtain ⟨hheads,hnumbers,_⟩ := h.spans i hi
  rw [hnumbers]
  rintro ⟨b,hb,hbn⟩
  have := hC.sized b (hC.mem_layout (hb.reached hheads.reached))
  rw [hbn,hF.fresh] at this
  exact Nat.lt_irrefl _ this

open Classical in
theorem Matches.enlist (h : t.Matches m f e) (hC : ControlFlow m f e) (hk : k < t.loops.length)
    (hF : Hoisting.Fronted m n f bs (t.loop k).header pre)
    (D : Detour m n e e' (t.loop k).header pre) :
    (t.enlist k pre).Matches n f e' := by
  have hshape := h.sameShape_enlist hk pre
  have hreach : ∀ {i}, i < t.loops.length → m.Reaches e (t.loop i).header :=
    fun hi => (h.spans _ hi).heads.reached
  have henc : ∀ j i, i < t.loops.length →
      ((t.enlist k pre).Encloses n e' j i ↔ t.Encloses m e j i) := by
    intro j i hi
    constructor
    · rintro ⟨h1,h2,h3⟩
      rw [hshape.length] at h1
      rw [hshape.header j h1,hshape.header i hi,
        D.inLoop_iff (hreach h1) (D.ne_pre (hreach hi))] at h3
      exact ⟨h1,h2,h3⟩
    · rintro ⟨h1,h2,h3⟩
      refine ⟨hshape.length.symm ▸ h1,h2,?_⟩
      rw [hshape.header j h1,hshape.header i hi,D.inLoop_iff (hreach h1) (D.ne_pre (hreach hi))]
      exact h3
  refine ⟨fun i hi => ?_,?_,fun i hi p hp => ?_,fun i hi hp j hj => ?_⟩
  · rw [hshape.length] at hi
    obtain ⟨hheads,hnumbers,hblocks⟩ := h.spans i hi
    have hanc : i ∈ t.ancestors k ↔ (t.loop i).header ≠ (t.loop k).header ∧
        m.InLoop e (t.loop i).header (t.loop k).header := by
      rw [h.mem_ancestors_iff hC.toFlowGraph hk]
      exact ⟨fun hx => ⟨fun heq => hx.ne (h.eq_of_header hC.toFlowGraph hi hk heq),hx.inLoop⟩,
        fun hx => ⟨hi,fun heq => hx.1 (by rw [heq]),hx.2⟩⟩
    obtain ⟨h1,h2⟩ := (h.enlist_loop hk hi).2.2.2 (h.number_notMem hC hF hi)
    refine ⟨?_,fun x => ?_,fun b => ?_⟩
    · rw [hshape.header i hi,D.heads_iff]
      exact hheads
    · rw [h1,hnumbers,hanc,hshape.header i hi]
      simp only [D.inLoop_iff_or hheads.reached,or_and_right,exists_or]
      grind
    · rw [h2,hblocks,hanc,hshape.header i hi,D.inLoop_iff_or hheads.reached]
  · rw [hshape.map_header,h.headers,hF.layout,if_pos rfl,filter_front]
    · exact filter_congr fun b _ => by rw [D.heads_iff]
    · rw [D.heads_iff]
      exact decide_eq_false fun hp => D.fresh hp.reached
  · rw [hshape.length] at hi
    rw [hshape.parent i hi] at hp
    obtain ⟨h1,h2⟩ := h.parent i hi p hp
    exact ⟨(henc p i hi).mpr h1,fun j hj => (h2 j ((henc j i hi).mp hj)).imp_right
      (henc j p h1.lt).mpr⟩
  · rw [hshape.length] at hi
    rw [hshape.parent i hi] at hp
    exact h.outermost i hi hp j ((henc j i hi).mp hj)

end
end Forest
namespace Hoisting

/-! Preheaders. -/

/-- The one way into the loop of `h` is through `pre`, and from `pre` there is no other way. -/
structure Guards (m : Module) (e h pre : BlockId) : Prop where
  reached : m.Reaches e pre
  branch : ∃ t, m.Ends pre t ∧ m.code.instr t = ⟨.br,.void,none,none,[.block h],some pre,[]⟩
  succs : m.succs pre = [h]
  outside : ¬m.InLoop e h pre
  entered : ∀ p ∈ m.preds h, p = pre ∨ m.InLoop e h p

section
variable {h k q : BlockId}

theorem Guards.of_same (hg : Guards m e h pre) (hs : SameFlow m n) : Guards n e h pre := by
  obtain ⟨t,ht,hbr⟩ := hg.branch
  obtain ⟨ht',hi⟩ := hs.ends pre t ht
  refine ⟨reaches_congr hs.succs ▸ hg.reached,⟨t,ht',hi.trans hbr⟩,(hs.succs pre).trans hg.succs,
    inLoop_congr hs.succs ▸ hg.outside,?_⟩
  rw [hs.preds,inLoop_congr hs.succs]
  exact hg.entered

theorem Guards.dominates (hg : Guards m e h pre) (hC : ControlFlow m f e) (hh : m.Reaches e h) :
    m.Dominates e pre h := by
  have hhl := hC.mem_layout hh
  have hne : e ≠ h := by
    rintro rfl
    exact hg.outside (.latch ⟨hg.reached,hg.succs ▸ mem_singleton_self _,.entry m e pre⟩)
  have key : ∀ b bs, m.Trail e b bs → h ∈ bs → pre ∈ bs := by
    intro b bs ht
    induction ht with
    | start => exact fun hm => absurd (mem_singleton.mp hm).symm hne
    | @step b c bs ht hc ih =>
      intro hm
      refine mem_cons_of_mem _ ?_
      rcases mem_cons.mp hm with rfl | hm
      · have hb := (hC.mem_preds_iff hhl).mpr ⟨hC.mem_layout ⟨bs,ht⟩,hc⟩
        rcases hg.entered b hb with rfl | hin
        · exact ht.mem_end
        · exact ih (hin.dominates bs ht)
      · exact ih hm
  exact fun bs ht => key h bs ht ht.mem_end

theorem Fronted.guards (hF : Fronted m n f bs h pre) (D : Detour m n e e' h pre)
    (hbs : ∀ b, b ∈ bs ↔ b ∈ m.preds h ∧ ¬m.InLoop e h b) : Guards n e' h pre := by
  refine ⟨D.reaches_pre,⟨_,hF.ends_pre,hF.branch⟩,by rw [hF.succs,if_pos rfl],?_,fun p hp => ?_⟩
  · rw [D.inLoop_pre_iff D.reached]
    exact fun hin => hin.1 rfl
  · rw [hF.preds,if_neg (D.ne_pre D.reached),if_pos rfl,mem_append,mem_singleton,mem_filter,
      decide_eq_true_eq] at hp
    rcases hp with ⟨hp,hout⟩ | hp
    · exact Or.inr (D.inLoop_of_inLoop D.reached
        (not_not.mp fun hin => hout ((hbs p).mpr ⟨hp,hin⟩)))
    · exact Or.inl hp

theorem Guards.detour (hg : Guards m e k q) (hC : ControlFlow m f e) (hF : Fronted m n f bs h pre)
    (D : Detour m n e e' h pre) (hbs : bs.Sublist (m.preds h)) (hk : m.Reaches e k) (hne : k ≠ h) :
    Guards n e' k q := by
  have hq := D.ne_pre hg.reached
  have hqbs : q ∉ bs := by
    intro hm
    have := ((hC.mem_preds_iff (hC.mem_layout D.reached)).mp (hbs.subset hm)).2
    rw [hg.succs,mem_singleton] at this
    exact hne this.symm
  obtain ⟨t,ht,hbr⟩ := hg.branch
  have hi : n.code.instr t = m.code.instr t :=
    hF.kept t (Fronted.ne_size_of_parent ht.parent) fun b hb hbt =>
    hqbs (Option.some.inj (hbt.parent.symm.trans ht.parent) ▸ hb)
  refine ⟨(D.reaches_iff hq).mpr hg.reached,⟨t,hF.ends_old hq ht,hi.trans hbr⟩,?_,?_,fun p hp => ?_⟩
  · rw [hF.succs,if_neg hq,if_neg hqbs,hg.succs]
  · rw [D.inLoop_iff hk hq]
    exact hg.outside
  · rw [hF.preds,if_neg (D.ne_pre hk),if_neg hne] at hp
    exact (hg.entered p hp).imp_right (D.inLoop_of_inLoop hk)

end

/-! Edits that leave the control flow alone. -/

theorem sameFlow_splitPhi (l : Loop) (m : Module) {phi : InstrId} (hu : m.Ends pre u)
    (hphi : (m.instr phi).op.isTerminator = false) : SameFlow m (splitPhi l pre m phi) := by
  unfold splitPhi
  extract_lets outside
  split
  · exact .refl m
  · have h1 := SameFlow.newPhi m pre (m.instr phi).type hu
    have hmerged :
        ((m.newPhi pre (m.instr phi).type).1.instr m.instrTable.size).op.isTerminator = false := by
      rw [op_newPhi]
      rfl
    have hsnd := m.newPhi_snd pre (m.instr phi).type
    generalize m.newPhi pre (m.instr phi).type = r at h1 hmerged hsnd
    obtain ⟨m1,merged⟩ := r
    obtain rfl := hsnd
    have h2 := SameFlow.foldl m1 (g := fun m (x : Operand × BlockId) =>
      (m.addIncoming _ x.1 x.2).removeIncoming phi x.2)
      (l := outside) fun n hn x _ => by
      have h3 := SameFlow.addIncoming n _ x.1 x.2 (hn.plain _ hmerged)
      exact h3.trans (.removeIncoming _ phi x.2 (h3.plain _ (hn.plain _ (h1.plain _ hphi))))
    exact (h1.trans h2).trans (.addIncoming _ phi _ pre (h2.plain _ (h1.plain _ hphi)))

theorem sameFlow_splitPhis (l : Loop) (m : Module) {h : BlockId} (hu : m.Ends pre u) :
    SameFlow m ((m.phis h).foldl (splitPhi l pre) m) :=
  .foldl m fun n hn phi hphi => sameFlow_splitPhi l n (hn.ends pre u hu).1
    (hn.plain phi (by rw [op_of_mem_phis hphi]; rfl))

theorem sameFlow_moves (m : Module) (hu : m.Ends pre u) (is : List InstrId)
    (his : ∀ i ∈ is, (m.instr i).op.isTerminator = false) :
    SameFlow m (is.foldl (fun m i => m.moveBefore i u) m) :=
  .foldl m fun n hn i hi => .moveBefore n (hn.ends pre u hu).1 (hn.plain i (his i hi))

/-! The run. -/

/-- A state whose forest is up to date. -/
structure Kept (f : FuncId) (e : BlockId) (s : State) : Prop where
  failure : s.failure = none
  flow : ControlFlow s.module f e
  forest : s.forest.Matches s.module f e
  guarded : ∀ i, i < s.forest.loops.length → ∀ pre, (s.forest.loop i).preheader = some pre →
    Guards s.module e (s.forest.loop i).header pre

/-- The predecessors of a header that are not in its loop. -/
def entrances (m : Module) (l : Loop) : List BlockId :=
  (m.preds l.header).filter fun b => !l.contains b

theorem makePreheader_eq
    (h : redirectAll (s.forest.loop k).header ⟨f,(s.module.func f).blocks.size⟩
      (s.module.addBlockBefore f "preheader" (s.forest.loop k).header).1
        (entrances s.module (s.forest.loop k)) = (m,none)) :
    makePreheader f s k =
      (⟨(((m.br ⟨f,(s.module.func f).blocks.size⟩ (s.forest.loop k).header).1.phis
        (s.forest.loop k).header).foldl
        (splitPhi (s.forest.loop k) ⟨f,(s.module.func f).blocks.size⟩)
        (m.br ⟨f,(s.module.func f).blocks.size⟩ (s.forest.loop k).header).1),
      s.forest.enlist k ⟨f,(s.module.func f).blocks.size⟩,
      { s.stats with preheaders := s.stats.preheaders + 1 },none⟩,
        some ⟨f,(s.module.func f).blocks.size⟩) := by
  have hsnd : (s.module.addBlockBefore f "preheader" (s.forest.loop k).header).2 =
    ⟨f,(s.module.func f).blocks.size⟩ := rfl
  unfold entrances at h
  unfold makePreheader
  simp only [hsnd,h]
  rfl

namespace Kept

variable (h : Kept f e s)
include h

theorem mem_entrances_iff (hk : k < s.forest.loops.length) (b : BlockId) :
    b ∈ entrances s.module (s.forest.loop k) ↔
      b ∈ s.module.preds (s.forest.loop k).header ∧
      ¬s.module.InLoop e (s.forest.loop k).header b := by
  have hspans := h.forest.spans k hk
  have hhl := h.flow.mem_layout hspans.heads.reached
  rw [entrances,mem_filter,Bool.not_eq_true']
  refine and_congr_right fun hb => ?_
  rw [← hspans.contains_iff h.flow.toFlowGraph (h.flow.inward _ hhl b hb),Bool.not_eq_true]

theorem of_same (hs : SameFlow s.module n) (stats : Stats) :
    Kept f e { s with module := n, stats := stats } :=
  ⟨h.failure,hs.controlFlow h.flow,h.forest.of_same hs,
    fun i hi pre hp => (h.guarded i hi pre hp).of_same hs⟩

theorem exists_fronted (hk : k < s.forest.loops.length) :
    ∃ n pre, Fronted s.module n f (entrances s.module (s.forest.loop k))
      (s.forest.loop k).header pre ∧
      Detour s.module n e (if e = (s.forest.loop k).header then pre else e)
      (s.forest.loop k).header pre ∧
      Hoisting.makePreheader f s k =
        (⟨(n.phis (s.forest.loop k).header).foldl (splitPhi (s.forest.loop k) pre) n,
        s.forest.enlist k pre,{ s.stats with preheaders := s.stats.preheaders + 1 },none⟩,
          some pre) := by
  have hspans := h.forest.spans k hk
  have hsub : (entrances s.module (s.forest.loop k)).Sublist
    (s.module.preds (s.forest.loop k).header) := filter_sublist
  obtain ⟨m,hm,hF⟩ := Hoisting.exists_fronted h.flow (h.flow.mem_layout hspans.heads.reached)
    hsub "preheader"
  exact ⟨_,_,hF,hF.detour h.flow hspans.heads (h.mem_entrances_iff hk),makePreheader_eq hm⟩

theorem makePreheader (hk : k < s.forest.loops.length) :
    ∃ s' pre e', makePreheader f s k = (s',some pre) ∧ Kept f e' s' ∧ s.forest.SameShape s'.forest ∧
      (s'.forest.loop k).preheader = some pre ∧
      ∀ i, (s.module.instr i).op.isTerminator = false →
        (s'.module.instr i).op.isTerminator = false := by
  have hhl := h.flow.mem_layout (h.forest.spans k hk).heads.reached
  have hsub : (entrances s.module (s.forest.loop k)).Sublist
    (s.module.preds (s.forest.loop k).header) := filter_sublist
  obtain ⟨n,pre,hF,D,heq⟩ := h.exists_fronted hk
  have hC := hF.controlFlow h.flow hhl hsub
  have hs := sameFlow_splitPhis (s.forest.loop k) n (h := (s.forest.loop k).header) hF.ends_pre
  have hshape := h.forest.sameShape_enlist hk pre
  have henlist := h.forest.enlist h.flow hk hF D
  refine ⟨_,pre,_,heq,⟨rfl,hs.controlFlow hC,henlist.of_same hs,fun i hi q hq => ?_⟩,hshape,?_,
    fun i hi => hs.plain i ?_⟩
  · refine Guards.of_same ?_ hs
    rw [hshape.length] at hi
    rw [(h.forest.enlist_loop hk hi).2.2.1] at hq
    rw [hshape.header i hi]
    split at hq
    · rename_i hki
      obtain rfl := Option.some.inj hq
      exact hki ▸ hF.guards D (h.mem_entrances_iff hk)
    · rename_i hki
      refine (h.guarded i hi q hq).detour h.flow hF D hsub (h.forest.spans i hi).heads.reached
        fun heq => ?_
      exact hki (h.forest.eq_of_header h.flow.toFlowGraph hi hk heq).symm
  · rw [(h.forest.enlist_loop hk hk).2.2.1,if_pos rfl]
  · have hi' : i ≠ s.module.instrTable.size := by
      rintro rfl
      rw [get_instr_size] at hi
      cases hi
    rw [(hF.instr_old hi').op]
    exact hi

theorem preheader (hk : k < s.forest.loops.length) :
    ∃ s' pre e', preheader f s k = (s',some pre) ∧ Kept f e' s' ∧ s.forest.SameShape s'.forest ∧
      (s'.forest.loop k).preheader = some pre ∧
      ∀ i, (s.module.instr i).op.isTerminator = false →
        (s'.module.instr i).op.isTerminator = false := by
  unfold Hoisting.preheader
  split
  · rename_i pre hpre
    exact ⟨s,pre,e,rfl,h,.refl _,hpre,fun _ hi => hi⟩
  · exact h.makePreheader hk

/-- What one loop comes to: nothing is found, or what is found moves to the end of the preheader. -/
theorem runOnLoop_cases (p : Purity) (k : Nat) :
    (invariants s.module p (s.forest.loop k) = [] ∧ Hoisting.runOnLoop p f s k = s) ∨
      k < s.forest.loops.length ∧ ∃ s' pre e' t, Hoisting.preheader f s k = (s',some pre) ∧
        Kept f e' s' ∧
        s.forest.SameShape s'.forest ∧ (s'.forest.loop k).preheader = some pre ∧
        s'.module.Ends pre t ∧
        (∀ i ∈ invariants s.module p (s.forest.loop k),
          (s'.module.instr i).op.isTerminator = false) ∧
        Hoisting.runOnLoop p f s k = { s' with
          module := (invariants s.module p (s.forest.loop k)).foldl
            (fun m i => m.moveBefore i t) s'.module
          stats := { s'.stats with hoisted := s'.stats.hoisted +
            (invariants s.module p (s.forest.loop k)).length } } := by
  rw [Hoisting.runOnLoop,h.failure]
  extract_lets found
  by_cases hfound : found.isEmpty
  · rw [if_neg (by simp),if_pos hfound]
    exact .inl ⟨isEmpty_iff.mp hfound,rfl⟩
  · rw [if_neg (by simp),if_neg hfound]
    have hk : k < s.forest.loops.length := by
      refine Nat.not_le.mp fun hk => hfound ?_
      have hnone : s.forest.loop k = default := by
        rw [Forest.loop,getD_eq_getElem?_getD,getElem?_eq_none hk,Option.getD_none]
      simp only [found,hnone]
      rfl
    obtain ⟨s',pre,e',heq,h',hshape,hpre,hplain⟩ := h.preheader hk
    obtain ⟨t,ht,_⟩ := (h'.guarded k (hshape.length.symm ▸ hk) pre hpre).branch
    refine .inr ⟨hk,s',pre,e',t,heq,h',hshape,hpre,ht,
      fun i hi => hplain i (op_of_mem_invariants hi).2.2,?_⟩
    rw [heq]
    dsimp only
    rw [ht.terminator?]

theorem runOnLoop (p : Purity) (k : Nat) :
    ∃ e', Kept f e' (runOnLoop p f s k) ∧ s.forest.SameShape (runOnLoop p f s k).forest := by
  rcases h.runOnLoop_cases p k with ⟨_,hrun⟩ | ⟨_,s',pre,e',t,_,h',hshape,_,ht,hplain,hrun⟩
  · rw [hrun]
    exact ⟨e,h,.refl _⟩
  · rw [hrun]
    exact ⟨e',h'.of_same (sameFlow_moves s'.module ht _ hplain) _,hshape⟩

end Kept

theorem Kept.run (h : Kept f e s) (p : Purity) (ks : List Nat) :
    ∃ e', Kept f e' (ks.foldl (Hoisting.runOnLoop p f) s) ∧
      s.forest.SameShape (ks.foldl (Hoisting.runOnLoop p f) s).forest := by
  induction ks generalizing e s with
  | nil => exact ⟨e,h,.refl _⟩
  | cons k ks ih =>
    obtain ⟨e1,h1,hs1⟩ := h.runOnLoop p k
    obtain ⟨e2,h2,hs2⟩ := ih h1
    exact ⟨e2,h2,hs1.trans hs2⟩

structure IsPreheader (m : Module) (t : Forest) (k : Nat) (pre : BlockId) : Prop where
  branch : ∃ i, m.terminator? pre = some i ∧ (m.instr i).op = .br ∧
    m.operands i = [.block (t.loop k).header]
  succs : m.succs pre = [(t.loop k).header]
  outside : (t.loop k).contains pre = false
  around : ∀ j ∈ t.ancestors k, (t.loop j).contains pre = true
  entered : ∀ p ∈ m.preds (t.loop k).header, p = pre ∨ (t.loop k).contains p = true

theorem Kept.isPreheader (h : Kept f e s) (hk : k < s.forest.loops.length)
    (hpre : (s.forest.loop k).preheader = some pre) : IsPreheader s.module s.forest k pre := by
  have hg := h.guarded k hk pre hpre
  have hspans := h.forest.spans k hk
  have hl := h.flow.mem_layout hg.reached
  obtain ⟨t,ht,hbr⟩ := hg.branch
  refine ⟨⟨t,ht.terminator?,by rw [op_eq_code,hbr],by rw [operands_eq_code,hbr]⟩,hg.succs,?_,
    fun j hj => ?_,fun p hp => ?_⟩
  · exact eq_false_of_ne_true fun hc => hg.outside
      ((hspans.contains_iff h.flow.toFlowGraph hl).mp hc)
  · -- the header of the loop is not the one of a loop around it, so what leads to it is in the loop
    -- around
    have henc := (h.forest.mem_ancestors_iff h.flow.toFlowGraph hk).mp hj
    refine ((h.forest.spans j henc.lt).contains_iff h.flow.toFlowGraph hl).mpr ?_
    refine .pred henc.inLoop (fun heq => henc.ne ?_) hg.reached (hg.succs ▸ mem_singleton_self _)
    exact h.forest.eq_of_header h.flow.toFlowGraph henc.lt hk heq.symm
  · refine (hg.entered p hp).imp_right fun hin => ?_
    exact (hspans.contains_iff h.flow.toFlowGraph
      (h.flow.inward _ (h.flow.mem_layout hspans.heads.reached) p hp)).mpr hin

def runFresh (m : Module) (f : FuncId) (p : Purity) : State :=
  run m f (m.findLoops f (m.dominators f)) p

theorem runFresh_of_few (h : ((m.func f).layout.filterMap
      (Forest.loopAt? m (m.dominators f) (m.func f).layout)).length ≤ 2) (p : Purity) :
    runFresh m f p = run m f (.ofFew ((m.func f).layout.filterMap
      (Forest.loopAt? m (m.dominators f) (m.func f).layout))) p := by
  rw [runFresh,findLoops,Forest.ofLoops_eq_ofFew h]

theorem Kept.start (hC : ControlFlow m f e) :
    Kept f e ⟨m,m.findLoops f (m.dominators f),⟨0,0⟩,none⟩ := by
  obtain ⟨hmatches,hnone⟩ := hC.matches_findLoops
  exact ⟨rfl,hC,hmatches,fun i hi pre hpre => by cases (hnone i hi).symm.trans hpre⟩

theorem runFresh_of_empty (hf : (m.func f).layout.head? = none) (p : Purity) :
    runFresh m f p = ⟨m,.ofLoops [],⟨0,0⟩,none⟩ := by
  have hnone : m.findLoops f (m.dominators f) = .ofLoops [] := by
    rw [findLoops,head?_eq_none_iff.mp hf]
    rfl
  rw [runFresh,hnone]
  rfl

/-- Hoisting does not fail, its preheaders are preheaders, and it keeps the forest that the analysis
finds afterwards. -/
theorem runFresh_keeps_forest {m : Module} (hm : Wired m) (hv : ∀ g ∈ m.funcs, m.verify g = .ok ())
    {f : FuncId} (hf : f ∈ m.funcs) (p : Purity) :
    (runFresh m f p).failure = none ∧
      (runFresh m f p).forest.loops.map (·.header) =
        (m.findLoops f (m.dominators f)).loops.map (·.header) ∧
      (∀ k, k < (runFresh m f p).forest.loops.length →
        ∀ pre, ((runFresh m f p).forest.loop k).preheader = some pre →
        IsPreheader (runFresh m f p).module (runFresh m f p).forest k pre) ∧
      (runFresh m f p).forest.Agrees
        ((runFresh m f p).module.findLoops f ((runFresh m f p).module.dominators f)) := by
  cases he : (m.func f).layout.head? with
  | none =>
    -- without blocks there is no loop and nothing is done
    have hnone : m.findLoops f (m.dominators f) = .ofLoops [] := by
      rw [findLoops,List.head?_eq_none_iff.mp he]
      rfl
    have hrun : runFresh m f p = ⟨m,m.findLoops f (m.dominators f),⟨0,0⟩,none⟩ := by
      rw [runFresh,run,hnone]
      rfl
    rw [hrun]
    dsimp only
    refine ⟨rfl,rfl,fun k hk => ?_,rfl,fun _ _ _ => Iff.rfl,fun _ _ _ => Iff.rfl,fun _ _ => rfl⟩
    rw [hnone] at hk
    exact absurd hk (Nat.not_lt_zero k)
  | some e =>
    have hC := hm.controlFlow hv hf he
    obtain ⟨hmatches,hnone⟩ := hC.matches_findLoops
    have hkept : Kept f e ⟨m,m.findLoops f (m.dominators f),⟨0,0⟩,none⟩ :=
      ⟨rfl,hC,hmatches,fun i hi pre hpre => by cases (hnone i hi).symm.trans hpre⟩
    obtain ⟨e',hkept',hshape⟩ := hkept.run p (m.findLoops f (m.dominators f)).postorder
    exact ⟨hkept'.failure,hshape.map_header,fun k hk pre hpre => hkept'.isPreheader hk hpre,
      hkept'.forest.agrees hkept'.flow.matches_findLoops.1 hkept'.flow.toFlowGraph⟩

/-- A loop around a loop, with an invariant in each; the outer one starts at the entry. -/
def nestedLoops : Module :=
  let b (n : Nat) : BlockId := ⟨0,n⟩
  { name := "nested", globals := [], funcs := [0], globalTable := .empty
    funcTable := ⟨#[⟨"main",.i32,[],[b 0,b 1,b 2,b 3],⟨#[
      ⟨"outer",[0,1],[b 2],[b 1],[4]⟩,⟨"inner",[2,3],[b 0,b 1],[b 1,b 2],[1,3]⟩,
      ⟨"turn",[4],[b 1],[b 0,b 3],[3]⟩,⟨"end",[5],[b 2],[],[4]⟩]⟩,2,.empty,[]⟩]⟩
    instrTable := ⟨#[
      ⟨.int .add,.i32,some 0,none,[.literal 0,.literal 1],some (b 0),[2]⟩,
      ⟨.br,.void,none,none,[.block (b 1)],some (b 0),[]⟩,
      ⟨.int .mul,.i32,some 1,none,[.instr 0,.literal 1],some (b 1),[]⟩,
      ⟨.br,.void,none,none,[.literal 0,.block (b 1),.block (b 2)],some (b 1),[]⟩,
      ⟨.br,.void,none,none,[.literal 0,.block (b 0),.block (b 3)],some (b 2),[]⟩,
      ⟨.ret,.void,none,none,[.literal 0],some (b 3),[]⟩]⟩
    literalTable := ⟨#[⟨.int 0,[0,3,4,5]⟩,⟨.int 7,[0,2]⟩]⟩ }

theorem runFresh_keeps_forest_nestedLoops :
    Wired nestedLoops ∧ (∀ g ∈ nestedLoops.funcs, nestedLoops.verify g = .ok ()) ∧
      IsPreheader (runFresh nestedLoops 0 ⟨[]⟩).module
        (runFresh nestedLoops 0 ⟨[]⟩).forest 0 ⟨0,5⟩ ∧
      IsPreheader (runFresh nestedLoops 0 ⟨[]⟩).module
        (runFresh nestedLoops 0 ⟨[]⟩).forest 1 ⟨0,4⟩ ∧
      (runFresh nestedLoops 0 ⟨[]⟩).forest.Agrees
        ((runFresh nestedLoops 0 ⟨[]⟩).module.findLoops 0
          ((runFresh nestedLoops 0 ⟨[]⟩).module.dominators 0)) := by
  have hm : Wired nestedLoops := ⟨by decide,by decide,by decide,by decide⟩
  have hv : ∀ g ∈ nestedLoops.funcs, nestedLoops.verify g = .ok () :=
    fun g hg => List.mem_singleton.mp hg ▸ rfl
  have hloops : (runFresh nestedLoops 0 ⟨[]⟩).forest.loops.map (·.preheader) =
      [some ⟨0,5⟩,some ⟨0,4⟩] := by
    rw [runFresh_of_few (by decide +kernel)]
    decide +kernel
  obtain ⟨_,_,hpre,hagrees⟩ := runFresh_keeps_forest hm hv (List.mem_singleton_self 0) ⟨[]⟩
  refine ⟨hm,hv,hpre 0 ?_ _ ?_,hpre 1 ?_ _ ?_,hagrees⟩
  all_goals
    rcases hl : (runFresh nestedLoops 0 ⟨[]⟩).forest.loops with _ | ⟨l,_ | ⟨l',ls⟩⟩ <;>
      simp_all [Forest.loop]

end Hoisting
end CMinusF
