import CMinusF.Proofs.Hoisting.ForestKept
import CMinusF.Proofs.Hoisting.Sound

/-! Instructions move out of a loop, each to the end of the preheader, where what it depends on
already is. -/
namespace CMinusF
open CMinusF.Module List

namespace Hoisting
variable {xs todo body found : List InstrId} {old : List BlockId} {p : Purity} {fx : Effects}

/-- What is seen of a module after `i` has moved from `b` to `pre`, between `as` and the end `t`. -/
structure Moved (m n : Module) (i : InstrId) (b pre : BlockId) (as : List InstrId) (t : InstrId) :
    Prop extends SameContext m n where
  flow : SameFlow m n
  instr : n.code.instr = (m.code.modifyInstr i fun x => { x with parent := some pre }).instr
  source : (n.block b).instrs = (m.block b).instrs.erase i
  target : (n.block pre).instrs = as ++ [i,t]
  others : ∀ d, d ≠ b → d ≠ pre → (n.block d).instrs = (m.block d).instrs
  mirror : m.Mirror → n.Mirror

section
variable {m n : Module} {f : FuncId} {e b c d pre : BlockId} {i j t : InstrId} {as : List InstrId}

theorem moved_moveBefore (hi : i ∈ (m.block b).instrs) (hp : (m.instr i).parent = some b)
    (hplain : (m.instr i).op.isTerminator = false) (ht : m.Ends pre t)
    (hs : (m.block pre).instrs = as ++ [t]) (hne : b ≠ pre) :
    Moved m (m.moveBefore i t) i b pre as t := by
  have hit : i ≠ t := by
    rintro rfl
    rw [ht.leaves] at hplain
    cases hplain
  have hta : t ∉ as := by
    intro hm
    obtain ⟨is,his,hlast⟩ := ht.last
    have := hlast t ((append_inj' (his.symm.trans hs) rfl).1 ▸ hm)
    rw [ht.leaves] at this
    cases this
  have hd : m.detach i = m.remove b i := by rw [detach,hp]
  have hcode := code_remove m hi
  have hmirror : m.Mirror → (m.remove b i).Mirror := fun h => h.remove b i
  have hflow := SameFlow.moveBefore m ht hplain
  rw [moveBefore_eq,hd] at hflow ⊢
  generalize m.remove b i = k at *
  have hparent : (k.instr t).parent = some pre := by
    have := congrArg Instr.parent (congrFun (congrArg Code.instr hcode) t)
    simp only [Code.modifyInstr,if_neg hit] at this
    exact this.trans ht.parent
  have hblock : ∀ d, (k.block d).instrs = if b = d then (m.block b).instrs.erase i
      else (m.block d).instrs := by
    intro d
    rw [instrs_eq_code,hcode]
    simp only [Code.modifyInstr,Code.modifyBlock]
    split
    · rename_i hbd
      rfl
    · rfl
  have hpre : (k.block pre).instrs = as ++ [t] := by rw [hblock,if_neg hne,hs]
  have hidx : (k.block pre).instrs.idxOf t = as.length := by
    rw [hpre,idxOf_append_of_notMem hta,idxOf_cons_self]
    rfl
  rw [hparent] at hflow ⊢
  dsimp only at hflow ⊢
  rw [hidx] at hflow ⊢
  have hcode' := code_insertAt k pre as.length i
  have hinstrs : ∀ d, ((k.insertAt pre as.length i).block d).instrs = if pre = d then as ++ [i,t]
      else (k.block d).instrs := by
    intro d
    rw [instrs_eq_code,hcode']
    simp only [Code.modifyInstr,Code.modifyBlock]
    split
    · have : (k.code.block pre).instrs = as ++ [t] := hpre
      simp [this]
    · rfl
  refine ⟨⟨by rw [hcode',hcode]; rfl⟩,hflow,?_,?_,?_,fun d hdb hdp => ?_,
    fun hm => (hmirror hm).insertAt pre _ i⟩
  · rw [hcode',hcode]
    funext j
    simp only [Code.modifyInstr,Code.modifyBlock]
    split <;> rfl
  · rw [hinstrs,if_neg (Ne.symm hne),hblock,if_pos rfl]
  · rw [hinstrs,if_pos rfl]
  · rw [hinstrs,if_neg (Ne.symm hdp),hblock,if_neg (Ne.symm hdb)]

namespace Moved

variable (h : Moved m n i b pre as t)
include h

theorem op_eq (j : InstrId) :
    (n.instr j).op = (m.instr j).op ∧ (n.instr j).type = (m.instr j).type ∧
    n.operands j = m.operands j := by
  have hj : ∃ b, n.code.instr j = { m.code.instr j with parent := b } := by
    rw [h.instr]
    simp only [Code.modifyInstr]
    split
    · rename_i hj
      exact ⟨some pre,by rw [hj]⟩
    · exact ⟨_,rfl⟩
  obtain ⟨b,hj⟩ := hj
  exact ⟨(congrArg Instr.op hj :),(congrArg Instr.type hj :),(congrArg Instr.operands hj :)⟩

theorem parent_eq (j : InstrId) :
    (n.instr j).parent = if i = j then some pre else (m.instr j).parent := by
  have := congrArg Instr.parent (congrFun h.instr j)
  simp only [Code.modifyInstr] at this
  split at this
  · rename_i hj
    rw [if_pos hj]
    exact this
  · rename_i hj
    rw [if_neg hj]
    exact this

theorem rest (hs : (m.block pre).instrs = as ++ [t]) (hnd : (m.block b).instrs.Nodup)
    (d : BlockId) :
    (n.block d).instrs.filter (· ≠ i) = (m.block d).instrs.filter (· ≠ i) := by
  by_cases hdp : d = pre
  · rw [hdp,h.target,hs]
    simp
  · by_cases hdb : d = b
    · rw [hdb,h.source,hnd.erase_eq_filter,filter_filter]
      exact filter_congr fun x _ => by simp
    · rw [h.others d hdb hdp]

theorem mem_iff (hs : (m.block pre).instrs = as ++ [t]) (hnd : (m.block b).instrs.Nodup)
    (hj : j ≠ i) : j ∈ (n.block d).instrs ↔ j ∈ (m.block d).instrs := by
  have := congrArg (j ∈ ·) (h.rest hs hnd d)
  simpa [hj] using this

end Moved

/-- An instruction other than `i` stands after the same ones as before. -/
theorem exists_split {l l' ys : List InstrId} (hr : l'.filter (· ≠ i) = l.filter (· ≠ i))
    (hj : j ≠ i) (hs : l' = xs ++ j :: ys) :
    ∃ xs' ys', l = xs' ++ j :: ys' ∧ ∀ k ∈ xs', k ≠ i → k ∈ xs := by
  rw [hs,filter_append,filter_cons_of_pos (by simpa using hj)] at hr
  obtain ⟨l1,l2,rfl,h1,h2⟩ := filter_eq_append_iff.mp hr.symm
  obtain ⟨l3,l4,rfl,hl3,_,_⟩ := filter_eq_cons_iff.mp h2
  refine ⟨l1 ++ l3,l4,by simp,fun k hk hki => ?_⟩
  rcases mem_append.mp hk with hk | hk
  · have : k ∈ l1.filter (· ≠ i) := mem_filter.mpr ⟨hk,by simpa using hki⟩
    rw [h1] at this
    exact mem_of_mem_filter this
  · exact absurd (by simpa using hki) (hl3 k hk)

theorem available_congr {line : BlockId → List InstrId} {done : List InstrId}
    (h : ∀ b, n.succs b = m.succs b) :
    Available n line e b done j ↔ Available m line e b done j := by
  unfold Available
  rw [dominates_congr h]

/-- What was available where `i` stood before or behind it still is: `i` has moved to where it is
available there, too. -/
theorem Moved.available (h : Moved m n i b pre as t) (hs : (m.block pre).instrs = as ++ [t])
    (hnd : (m.block b).instrs.Nodup) (hdom : m.Dominates e pre b) (hne : b ≠ pre)
    (huniq : ∀ c, m.Reaches e c → i ∈ (m.block c).instrs → c = b) (hd : m.Reaches e d)
    {xs' : List InstrId} (hsub : ∀ k ∈ xs', k ≠ i → k ∈ xs) (hxs : i ∈ xs' → d = b)
    (ha : Available m (fun c => (m.block c).instrs) e d xs' j) :
    Available n (fun c => (n.block c).instrs) e d xs j := by
  rw [available_congr h.flow.succs]
  by_cases hji : j = i
  · subst hji
    have hbd : m.Dominates e b d := by
      rcases ha with ha | ⟨c,_,hcd,hjc⟩
      · rw [hxs ha]
        exact .refl m e b
      · rwa [← huniq c (hcd.reaches hd) hjc]
    refine .inr ⟨pre,?_,hdom.trans hbd,by simp [h.target]⟩
    rintro rfl
    exact hne (hbd.antisymm hdom hd)
  · rcases ha with ha | ⟨c,hcd,hc,hjc⟩
    · exact .inl (hsub j ha hji)
    · exact .inr ⟨c,hcd,hc,(h.mem_iff hs hnd hji).mpr hjc⟩

/-- An instruction may move in front of a loop once all it depends on is available there. -/
theorem Sound.move (h : Sound m f e todo old) (hM : Moved m n i b pre as t)
    (hb : m.Reaches e b) (hi : i ∈ (m.block b).instrs) (hop : (m.instr i).op ≠ .phi)
    (ht : m.Ends pre t) (hs : (m.block pre).instrs = as ++ [t]) (hdom : m.Dominates e pre b)
    (hne : b ≠ pre) (hav : ∀ j, .instr j ∈ m.operands i →
      Available m (fun c => (m.block c).instrs) e pre as j) : Sound n f e todo old := by
  have hbl := h.flow.mem_layout hb
  have hpr := hdom.reaches hb
  have hpl := h.flow.mem_layout hpr
  have hnd := h.nodup b hbl
  have hlayout := hM.flow.layout f
  have hreach := reaches_congr hM.flow.succs
  have hterm := ht.leaves
  have hblock : ∀ c ∈ (m.func f).layout, i ∈ (m.block c).instrs → c = b :=
    fun c hc hic => h.block_unique hc hbl hic hi
  have hplace : ∀ c ∈ (m.func f).layout, (i ∈ (n.block c).instrs ↔ c = pre) := by
    intro c hc
    by_cases hcp : c = pre
    · simp [hcp,hM.target]
    · by_cases hcb : c = b
      · rw [hcb,hM.source,hnd.mem_erase_iff]
        simp [hne]
      · rw [hM.others c hcb hcp]
        exact iff_of_false (fun hic => hcb (hblock c hc hic)) hcp
  have hnot : i ∉ as ++ [t] := fun hip => hne (hblock pre hpl (hs ▸ hip)).symm
  have hinstrs : ∀ j, j ∈ n.instrs f ↔ j ∈ m.instrs f := by
    intro j
    rw [mem_instrs_iff,mem_instrs_iff,hlayout]
    by_cases hj : j = i
    · rw [hj]
      exact iff_of_true ⟨pre,hpl,(hplace pre hpl).mpr rfl⟩ ⟨b,hbl,hi⟩
    · simp only [hM.mem_iff hs hnd hj]
  have hphi : ∀ {c p}, (n.instr p).op = .phi →
      (p ∈ (n.block c).instrs ↔ p ∈ (m.block c).instrs) := by
    intro c p hp
    refine hM.mem_iff hs hnd ?_
    rintro rfl
    rw [(hM.op_eq p).1] at hp
    exact hop hp
  have hsplit : ∀ {c xs k ys}, (n.block c).instrs = xs ++ k :: ys → k ≠ i →
      ∃ xs' ys', (m.block c).instrs = xs' ++ k :: ys' ∧ ∀ x ∈ xs', x ≠ i → x ∈ xs := fun hs' hk =>
    exists_split (hM.rest hs hnd _) hk hs'
  have hxs : ∀ {c xs ys}, m.Reaches e c → (m.block c).instrs = xs ++ ys → i ∈ xs → c = b :=
    fun hc hs' hx =>
    hblock _ (h.flow.mem_layout hc) (hs' ▸ mem_append_left _ hx)
  have havail : ∀ {c xs xs' j}, m.Reaches e c → (∀ k ∈ xs', k ≠ i → k ∈ xs) → (i ∈ xs' → c = b) →
      Available m (fun c => (m.block c).instrs) e c xs' j →
        Available n (fun c => (n.block c).instrs) e c xs j :=
    fun hc hsub hx => hM.available hs hnd hdom hne
      (fun c hc => hblock c (h.flow.mem_layout hc)) hc hsub hx
  refine ⟨hM.flow.controlFlow h.flow,hM.mirror h.mirror,fun c hc => ?_,fun c hc j hj => ?_,
    fun c hc => ?_,fun j hj v hv => ?_,
    fun j hj k hk => ?_,fun j hj k hk => ?_,fun j hj hp => ?_,fun j hj hp => ?_,
    fun c hc p hp hop' => ?_,⟨?_,?_,?_⟩,?_⟩
  · rw [hlayout] at hc
    by_cases hcp : c = pre
    · rw [hcp,hM.target,nodup_middle,nodup_cons]
      exact ⟨hnot,hs ▸ h.nodup pre hpl⟩
    · by_cases hcb : c = b
      · rw [hcb,hM.source]
        exact hnd.erase i
      · rw [hM.others c hcb hcp]
        exact h.nodup c hc
  · rw [hlayout] at hc
    rw [hM.parent_eq]
    split
    · rename_i hij
      rw [(hplace c hc).mp (hij ▸ hj)]
    · rename_i hij
      exact h.parent c hc j ((hM.mem_iff hs hnd (Ne.symm hij)).mp hj)
  · rw [hlayout] at hc
    simp only [(hM.op_eq _).1]
    by_cases hcp : c = pre
    · have hpre := h.ordered pre hpl
      rw [hs,pairwise_append] at hpre
      rw [hcp,hM.target,pairwise_append]
      refine ⟨hpre.1,pairwise_pair.mpr fun hp => ?_,fun x hx y hy hp => ?_⟩
      · rw [hp] at hterm
        cases hterm
      · grind
    · by_cases hcb : c = b
      · rw [hcb,hM.source]
        exact (h.ordered b hbl).sublist erase_sublist
      · rw [hM.others c hcb hcp]
        exact h.ordered c hc
  · rw [(hM.op_eq j).2.2] at hv
    exact h.owned j ((hinstrs j).mp hj) v hv
  · rw [(hM.op_eq j).2.2] at hk
    rw [hM.parent_eq]
    split
    · exact ⟨pre,rfl,h.flow.owned pre hpl⟩
    · exact h.home j ((hinstrs j).mp hj) k hk
  · rw [(hM.op_eq j).2.2] at hk
    rw [(hM.op_eq k).2.1]
    exact h.valued j ((hinstrs j).mp hj) k hk
  · rw [(hM.op_eq j).1] at hp
    rw [(hM.op_eq j).2.1]
    exact h.typed j ((hinstrs j).mp hj) hp
  · rw [(hM.op_eq j).1] at hp
    rw [(hM.op_eq j).2.2]
    exact h.load j ((hinstrs j).mp hj) hp
  · rw [hlayout] at hc
    have := h.fed c hc p ((hphi hop').mp hp) (by rwa [← (hM.op_eq p).1])
    rw [Fed,(hM.op_eq p).2.2,hreach,hM.flow.preds]
    exact this
  · intro c hc xs k ys hk hpk j hj
    rw [hreach] at hc
    rw [(hM.op_eq k).1] at hpk
    rw [(hM.op_eq k).2.2] at hj
    by_cases hki : k = i
    · -- the instruction that has moved
      subst hki
      have hcp := (hplace c (h.flow.mem_layout hc)).mp (hk ▸ by simp)
      subst hcp
      rw [hM.target] at hk
      obtain ⟨hnx,hnt⟩ := not_or.mp fun hm => hnot (mem_append.mpr hm)
      obtain ⟨rfl,_,_⟩ := (append_cons_inj_of_notMem hnx hnt).mp hk
      exact havail hpr (fun _ hx _ => hx) (fun hx => absurd hx hnx) (hav j hj)
    · obtain ⟨xs',ys',hk',hsub⟩ := hsplit hk hki
      exact havail hc hsub (hxs hc hk') (h.ssa.dominated c hc xs' k ys' hk' hpk j hj)
  · intro c hc p hp hpop q hq j hj
    rw [hreach] at hc hq
    have hp' := (hphi hpop).mp hp
    rw [(hM.op_eq p).1] at hpop
    rw [incoming,(hM.op_eq p).2.2] at hj
    refine havail hq (fun k hk hki => (hM.mem_iff hs hnd hki).mpr hk)
      (fun hiq => hblock q (h.flow.mem_layout hq) hiq) ?_
    exact h.ssa.phi_dominated c hc p hp' hpop q hq j hj
  · intro j hj u hu
    rw [hinstrs] at hj ⊢
    refine h.ssa.linked j hj u ?_
    rw [h.mirror.mem_uses_iff (by simp),← (hM.op_eq u).2.2]
    exact ((hM.mirror h.mirror).mem_uses_iff (by simp) u).mp hu
  · intro q hq hqr p hp hpop
    rw [hM.flow.preds] at hq
    rw [hreach] at hqr ⊢
    rw [incoming,(hM.op_eq p).2.2]
    exact h.entry q hq hqr p ((hphi hpop).mp hp) (by rwa [← (hM.op_eq p).1])

/-! What stays and what leaves. -/

/-- Stores, branches, returns, phis and calls that may do something stay where they are. -/
def Fixed (m : Module) (p : Purity) (i : InstrId) : Prop :=
  (m.instr i).op = .store ∨ (m.instr i).op.isTerminator = true ∨ (m.instr i).op = .phi ∨
    (m.instr i).op = .call ∧ isPureCall m p i = false

theorem fixed_congr (hop : (n.instr i).op = (m.instr i).op)
    (ho : (m.instr i).op = .call → n.operands i = m.operands i) : Fixed n p i ↔ Fixed m p i := by
  unfold Fixed
  rw [hop]
  refine or_congr_right (or_congr_right (or_congr_right (and_congr_right fun hc => ?_)))
  rw [isPureCall,isPureCall,callee?,callee?,hop,ho hc]

/-- Between two modules, what is fixed has not moved and nothing is lost. -/
structure Stays (p : Purity) (f : FuncId) (m n : Module) : Prop where
  fixed : ∀ b ∈ (m.func f).layout, b ∈ (n.func f).layout ∧ ∀ i ∈ (m.block b).instrs, Fixed m p i →
    i ∈ (n.block b).instrs ∧ Fixed n p i
  all : ∀ i ∈ m.instrs f, i ∈ n.instrs f

theorem Stays.refl (p : Purity) (f : FuncId) (m : Module) : Stays p f m m :=
  ⟨fun _ hb => ⟨hb,fun _ hi hf => ⟨hi,hf⟩⟩,fun _ hi => hi⟩

theorem Stays.trans {k : Module} (h : Stays p f m n) (h' : Stays p f n k) : Stays p f m k := by
  refine ⟨fun b hb => ?_,fun i hi => h'.all i (h.all i hi)⟩
  obtain ⟨hbn,h1⟩ := h.fixed b hb
  obtain ⟨hbk,h2⟩ := h'.fixed b hbn
  simp_all

/-- Instructions of a loop in an order in which they can leave it: each after those of the loop that
it reads. -/
structure Leaving (m : Module) (p : Purity) (l : Loop) (is : List InstrId) : Prop where
  inside : ∀ i ∈ is, i ∈ bodyOf m l
  free : ∀ i ∈ is, ¬Fixed m p i
  ready : ∀ xs i ys, is = xs ++ i :: ys → ∀ j, .instr j ∈ m.operands i → j ∈ bodyOf m l → j ∈ xs

theorem settled_of_canHoist (h : canHoist m p fx body found i = true)
    (hload : (m.instr i).op = .load → ∃ v, m.operands i = [v]) (hj : .instr j ∈ m.operands i) :
    settled body found (.instr j) = true := by
  unfold canHoist at h
  split at h
  case h_5 hop =>
    rw [Bool.and_eq_true,isPureCall,callee?,hop] at h
    rw [callArgs,hop] at h
    grind
  case h_6 hop =>
    obtain ⟨v,hv⟩ := hload hop
    rw [hv,mem_singleton] at hj
    rw [operand,hv,← hj,Bool.and_eq_true] at h
    exact h.1
  case h_7 => exact all_eq_true.mp (Bool.and_eq_true .. ▸ h).2 _ hj
  all_goals cases h

theorem not_fixed_of_canHoist (h : canHoist m p fx body found i = true) :
    ¬Fixed m p i := by
  obtain ⟨h1,h2,h3⟩ := op_of_canHoist h
  rintro (hf | hf | hf | ⟨hf,hp⟩)
  · exact h1 hf
  · rw [h3] at hf
    cases hf
  · exact h2 hf
  · unfold canHoist at h
    rw [hf] at h
    simp [hp] at h

theorem leaving_invariants (m : Module) (p : Purity) (l : Loop)
    (hload : ∀ i ∈ bodyOf m l, (m.instr i).op = .load → ∃ v, m.operands i = [v]) :
    Leaving m p l (invariants m p l) := by
  have h := ordered_invariants m p l
  refine ⟨fun i hi => ?_,fun i hi => ?_,fun xs i ys hs j hj hjb => ?_⟩
  · obtain ⟨xs,ys,hs⟩ := append_of_mem hi
    exact (h.split hs).1
  · obtain ⟨xs,ys,hs⟩ := append_of_mem hi
    exact not_fixed_of_canHoist (h.split hs).2
  · obtain ⟨hi,hc⟩ := h.split hs
    have := settled_of_canHoist hc (hload i hi) hj
    simpa [settled,hjb] using this

/-! Leaving a loop. -/

/-- A loop behind its preheader, which ends with `t`. -/
structure Gate (m : Module) (e : BlockId) (l : Loop) (pre : BlockId) (t : InstrId) : Prop where
  reached : m.Reaches e l.header
  blocks : ∀ b, b ∈ l.blocks ↔ m.InLoop e l.header b
  guards : Guards m e l.header pre
  ends : m.Ends pre t

variable {l : Loop} {is : List InstrId}

theorem Gate.of_same (h : Gate m e l pre t) (hs : SameFlow m n) : Gate n e l pre t :=
  ⟨reaches_congr hs.succs ▸ h.reached,inLoop_congr hs.succs ▸ h.blocks,h.guards.of_same hs,
    (hs.ends pre t h.ends).1⟩

theorem mem_bodyOf : i ∈ bodyOf m l ↔ ∃ b ∈ l.blocks, i ∈ (m.block b).instrs := mem_flatMap

/-- What an instruction of the loop reads from outside is there at the end of the preheader. -/
theorem Gate.available (h : Gate m e l pre t) (hS : Sound m f e todo old)
    (hs : (m.block pre).instrs = as ++ [t]) (hb : b ∈ l.blocks) (hi : i ∈ (m.block b).instrs)
    (hop : (m.instr i).op ≠ .phi) (hj : .instr j ∈ m.operands i) (hout : j ∉ bodyOf m l) :
    Available m (fun c => (m.block c).instrs) e pre as j := by
  have hin := (h.blocks b).mp hb
  have hbr := hin.reached h.reached
  obtain ⟨xs,ys,hxs⟩ := append_of_mem hi
  rcases hS.ssa.dominated b hbr xs i ys hxs hop j hj with hjx | ⟨c,_,hcb,hjc⟩
  · exact absurd (mem_bodyOf.mpr ⟨b,hb,hxs ▸ mem_append_left _ hjx⟩) hout
  · -- its block is none of the loop's, so it dominates the header and what comes before
    have hcin : ¬m.InLoop e l.header c :=
      fun hc => hout (mem_bodyOf.mpr ⟨c,(h.blocks c).mpr hc,hjc⟩)
    have hch := hin.dominates_header h.reached hcb hcin
    have hne : c ≠ l.header := by
      rintro rfl
      exact hcin .header
    have hcp : m.Dominates e c pre := hch.of_succ (h.guards.succs ▸ mem_singleton_self _) hne
    by_cases hc : c = pre
    · have hjc : j ∈ (m.block c).instrs := hjc
      rw [hc,hs] at hjc
      refine .inl ((mem_append.mp hjc).resolve_right fun hjt => ?_)
      -- a branch has no value
      obtain ⟨u,hu,hbr'⟩ := h.guards.branch
      have hv := hS.valued i (hS.mem_instrs hbr hi) j hj
      have hty := congrArg Instr.type hbr'
      rw [← h.ends.unique hu,← mem_singleton.mp hjt] at hty
      have hty : (m.instr j).type = .void := hty
      rw [hty] at hv
      cases hv
    · exact .inr ⟨c,hc,hcp,hjc⟩

theorem Sound.leave (hS : Sound m f e todo old) (h : Gate m e l pre t)
    (hL : Leaving m p l (i :: is)) (hnd : (i :: is).Nodup) :
    SameFlow m (m.moveBefore i t) ∧ Sound (m.moveBefore i t) f e todo old ∧
    Leaving (m.moveBefore i t) p l is ∧
      Stays p f m (m.moveBefore i t) := by
  obtain ⟨b,hb,hib⟩ := mem_bodyOf.mp (hL.inside i mem_cons_self)
  have hfree := hL.free i mem_cons_self
  have hop : (m.instr i).op ≠ .phi := fun hop => hfree (Or.inr (Or.inr (Or.inl hop)))
  have hplain : (m.instr i).op.isTerminator = false :=
    eq_false_of_ne_true fun hop => hfree (Or.inr (Or.inl hop))
  have hin := (h.blocks b).mp hb
  have hbr := hin.reached h.reached
  have hbl := hS.flow.mem_layout hbr
  have hne : b ≠ pre := by
    rintro rfl
    exact h.guards.outside hin
  obtain ⟨as,hs,_⟩ := h.ends.last
  have hM := moved_moveBefore hib (hS.parent b hbl i hib) hplain h.ends hs hne
  have hdom := (h.guards.dominates hS.flow h.reached).trans hin.dominates
  have hS' := hS.move hM hbr hib hop h.ends hs hdom hne fun j hj =>
    h.available hS hs hb hib hop hj fun hjb =>
    not_mem_nil (hL.ready [] i is rfl j hj hjb)
  generalize m.moveBefore i t = n at *
  have hmem : ∀ {c j}, j ≠ i → (j ∈ (n.block c).instrs ↔ j ∈ (m.block c).instrs) :=
    hM.mem_iff hs (hS.nodup b hbl)
  have hbody : ∀ {j}, j ≠ i → (j ∈ bodyOf n l ↔ j ∈ bodyOf m l) := fun hj => by
    simp only [mem_bodyOf,hmem hj]
  have hgone : i ∉ bodyOf n l := by
    intro hi
    obtain ⟨c,hc,hic⟩ := mem_bodyOf.mp hi
    have hcin := (h.blocks c).mp hc
    have hcl : c ∈ (n.func f).layout :=
      hM.flow.layout f ▸ hS.flow.mem_layout (hcin.reached h.reached)
    have hparent := hS'.parent c hcl i hic
    rw [hM.parent_eq,if_pos rfl] at hparent
    exact h.guards.outside (Option.some.inj hparent ▸ hcin)
  have hfixed : ∀ j, Fixed n p j ↔ Fixed m p j :=
    fun j => fixed_congr (hM.op_eq j).1 fun _ => (hM.op_eq j).2.2
  obtain ⟨hii,_⟩ := nodup_cons.mp hnd
  have hmis : ∀ j ∈ is, j ≠ i := by
    rintro j hj rfl
    exact hii hj
  refine ⟨hM.flow,hS',⟨fun j hj => ?_,fun j hj => ?_,fun xs j ys hs' k hk hkb => ?_⟩,
    ⟨fun c hc => ⟨?_,fun j hj hf => ?_⟩,fun j hj => ?_⟩⟩
  · exact (hbody (hmis j hj)).mpr (hL.inside j (mem_cons_of_mem _ hj))
  · exact (hfixed j).not.mpr (hL.free j (mem_cons_of_mem _ hj))
  · rw [(hM.op_eq j).2.2] at hk
    have hki : k ≠ i := by
      rintro rfl
      exact hgone hkb
    exact (mem_cons.mp (hL.ready (i :: xs) j ys (by rw [hs']; rfl) k hk
      ((hbody hki).mp hkb))).resolve_left hki
  · rw [hM.flow.layout]
    exact hc
  · grind
  · obtain ⟨c,hc,hjc⟩ := mem_instrs_iff.mp hj
    by_cases hji : j = i
    · refine mem_instrs_iff.mpr ⟨pre,?_,by simp [hM.target,hji]⟩
      rw [hM.flow.layout]
      exact hS.flow.mem_layout h.guards.reached
    · refine mem_instrs_iff.mpr ⟨c,?_,(hmem hji).mpr hjc⟩
      rw [hM.flow.layout]
      exact hc

theorem Sound.leaveAll (hS : Sound m f e todo old) (h : Gate m e l pre t) (hL : Leaving m p l is)
    (hnd : is.Nodup) :
    Sound (is.foldl (fun m i => m.moveBefore i t) m) f e todo old ∧
    Stays p f m (is.foldl (fun m i => m.moveBefore i t) m) := by
  induction is generalizing m with
  | nil => exact ⟨hS,.refl p f m⟩
  | cons i is ih =>
    obtain ⟨hflow,hS',hL',hst⟩ := hS.leave h hL hnd
    obtain ⟨h1,h2⟩ := ih hS' (h.of_same hflow) hL' (nodup_cons.mp hnd).2
    exact ⟨h1,hst.trans h2⟩

end
end Hoisting
end CMinusF
