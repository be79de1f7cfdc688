import CMinusF.Proofs.Hoisting.Growth
import CMinusF.Proofs.Hoisting.Moves

/-! The phis of a header when a preheader takes over: what they take from outside is merged there.
-/
namespace CMinusF
open CMinusF.Module List
variable {i j p q t : InstrId} {m : Module} {ps : List (Operand × BlockId)} {pre : BlockId}
  {v : Operand}

theorem Code.setOperands_comm (c : Code) (hij : i ≠ j) (l l' : List Operand) :
    (c.setOperands i l).setOperands j l' = (c.setOperands j l').setOperands i l := by
  refine Code.ext rfl rfl rfl (funext fun k => ?_) rfl rfl rfl
  simp only [Code.setOperands,Code.modifyInstr]
  by_cases hi : i = k
  · have hj : j ≠ k := fun hj => hij (hi.trans hj.symm)
    simp [hi,hj]
  · by_cases hj : j = k <;> simp [hi,hj]

namespace Module
variable {b : BlockId}

/-! A new phi. -/

theorem instrs_newPhi (t : Ty) (hq : m.instrTable.size ∉ (m.block b).instrs) (d : BlockId) :
    ((m.newPhi b t).1.block d).instrs = if d = b then m.phis b ++ m.instrTable.size :: m.body b
      else (m.block d).instrs := by
  have hblock : ∀ d, ((m.counted b.func t).code.block d).instrs = (m.block d).instrs := by
    intro d
    rw [code_counted]
    split <;> rfl
  have hphis : (m.makeInstr b.func .phi t none []).1.phis b = m.phis b := by
    have hc := code_makeInstr m b.func .phi t none []
    refine phis_congr ?_ fun i hi => ?_
    · rw [instrs_eq_code]
      exact hblock b
    · have hne : i ≠ m.instrTable.size := by
        rintro rfl
        exact hq hi
      rw [op_eq_code,hc]
      simp only [Code.setInstr,if_neg hne]
      rw [code_counted]
      split <;> rfl
  rw [instrs_eq_code,code_newPhi,hphis]
  simp only [Code.modifyBlock,Code.modifyInstr,Code.setInstr]
  by_cases hd : d = b
  · rw [if_pos hd.symm,if_pos hd]
    dsimp only
    rw [hblock,instrs_eq_phis_append,take_left,drop_left]
  · rw [if_neg (Ne.symm hd),if_neg hd]
    exact hblock d

/-! Pairs taken from one phi to another. -/

theorem dropPair_flatMap (b : BlockId) (hnd : (ps.map (·.2)).Nodup) :
    dropPair b (arms ps) = arms (ps.filter (·.2 ≠ b)) := by
  induction ps with
  | nil => rfl
  | cons x ps ih =>
    obtain ⟨hx,hnd⟩ := nodup_cons.mp hnd
    simp only [flatMap_cons,cons_append,nil_append,dropPair,Operand.block.injEq]
    by_cases hb : x.2 = b
    · have hself : ps.filter (·.2 ≠ b) = ps := by
        refine filter_eq_self.mpr fun y hy => ?_
        simp only [decide_eq_true_eq]
        rintro rfl
        exact hx (mem_map.mpr ⟨y,hy,hb.symm⟩)
      rw [if_pos hb,filter_cons_of_neg (by simpa using hb),hself]
    · rw [if_neg hb,ih hnd,filter_cons_of_pos (by simpa using hb)]
      rfl

theorem code_transfer (hne : q ≠ p) (outs : List (Operand × BlockId)) (m : Module)
    (hp : m.operands p = arms ps) (hnd : (ps.map (·.2)).Nodup) :
    (outs.foldl (fun m x => (m.addIncoming q x.1 x.2).removeIncoming p x.2) m).code =
      (m.code.setOperands q (m.operands q ++ arms outs)).setOperands p
        (arms (ps.filter (·.2 ∉ outs.map (·.2)))) := by
  induction outs generalizing m ps with
  | nil =>
    have hself : ps.filter (·.2 ∉ ([] : List (Operand × BlockId)).map (·.2)) = ps :=
        filter_eq_self.mpr fun _ _ => by
      simp
    rw [hself,← hp,arms,flatMap_nil,append_nil,operands_eq_code m q,Code.setOperands_self,
      operands_eq_code,Code.setOperands_self]
    rfl
  | cons x outs ih =>
    have hadd := code_addIncoming m q x.1 x.2
    have hop : (m.addIncoming q x.1 x.2).operands p = arms ps := by
      rw [operands_setOperands_of_code hadd,if_neg hne,hp]
    have hcode := code_removeIncoming (m.addIncoming q x.1 x.2) p x.2
    rw [hop,dropPair_flatMap x.2 hnd] at hcode
    rw [foldl_cons]
    generalize (m.addIncoming q x.1 x.2).removeIncoming p x.2 = n at hcode ⊢
    have hn := hcode
    rw [hadd] at hcode
    have hopq : n.operands q = m.operands q ++ [x.1,.block x.2] := by
      rw [operands_setOperands_of_code hn,if_neg (Ne.symm hne),
        operands_setOperands_of_code hadd,if_pos rfl]
    have hopp : n.operands p = arms (ps.filter (·.2 ≠ x.2)) := by
      rw [operands_setOperands_of_code hn,if_pos rfl]
    have hnd' : ((ps.filter (·.2 ≠ x.2)).map (·.2)).Nodup := hnd.sublist (filter_sublist.map _)
    have hq : m.operands q ++ [x.1,.block x.2] ++ arms outs = m.operands q ++ arms (x :: outs) := by
      simp
    have hps : (ps.filter (·.2 ≠ x.2)).filter (·.2 ∉ outs.map (·.2)) =
        ps.filter (·.2 ∉ (x :: outs).map (·.2)) := by
      rw [filter_filter]
      refine filter_congr fun y _ => ?_
      simp only [decide_not,map_cons,mem_cons,Bool.decide_or,Bool.not_or]
      exact Bool.and_comm _ _
    rw [ih n hopp hnd',hopq,hcode,hq,hps,Code.setOperands_comm _ (Ne.symm hne),
      Code.setOperands_setOperands,Code.setOperands_setOperands]

end Module

namespace Hoisting

/-- What is seen of a module after the pairs `outs` of the phi `p` have been merged in a new phi `q`
of `pre`. -/
structure Split (m n : Module) (p q : InstrId) (pre : BlockId)
    (ins outs : List (Operand × BlockId)) : Prop where
  fresh : q = m.instrTable.size
  flow : SameFlow m n
  phi : n.code.instr p = { m.code.instr p with operands := arms (ins ++ [(Operand.instr q,pre)]) }
  merged : ∃ k, n.code.instr q = ⟨.phi,(m.instr p).type,k,none,arms outs,some pre,[]⟩
  kept : ∀ i, i ≠ p → i ≠ q → n.code.instr i = m.code.instr i
  instrs : ∀ d, (n.block d).instrs = if d = pre then m.phis pre ++ q :: m.body pre
    else (m.block d).instrs
  mirror : m.Mirror → n.Mirror

theorem filterMap_outside (l : Loop) (ps : List (Operand × BlockId))
    {g : Operand × Operand → Option (Operand × BlockId)}
    (hg : ∀ v b, g (v,.block b) = if l.contains b then none else some (v,b)) :
    (ps.map fun x => (x.1,Operand.block x.2)).filterMap g = ps.filter fun x => !l.contains x.2 := by
  induction ps with
  | nil => rfl
  | cons x ps ih =>
    grind

theorem splitPhi_eq (l : Loop)
    (ho : m.operands p = arms ps) (hout : ∃ x ∈ ps, l.contains x.2 = false) :
    splitPhi l pre m p = ((ps.filter fun x => !l.contains x.2).foldl
      (fun n x => (n.addIncoming m.instrTable.size x.1 x.2).removeIncoming p x.2)
      (m.newPhi pre (m.instr p).type).1).addIncoming p (.instr m.instrTable.size) pre := by
  unfold splitPhi
  extract_lets outside
  have houtside : outside = ps.filter fun x => !l.contains x.2 := by
    simp only [outside,incoming,ho,pairs_flatMap]
    exact filterMap_outside l ps fun _ _ => rfl
  obtain ⟨x,hx,hxl⟩ := hout
  have hne : outside.isEmpty = false := by
    rw [houtside,isEmpty_eq_false_iff]
    exact ne_nil_of_mem (mem_filter.mpr ⟨hx,by simp [hxl]⟩)
  rw [hne,houtside]
  rfl

theorem split_splitPhi (l : Loop) (ht : m.Ends pre t)
    (hp : p < m.instrTable.size) (hop : (m.instr p).op = .phi) (ho : m.operands p = arms ps)
    (hnd : (ps.map (·.2)).Nodup) (hout : ∃ x ∈ ps, l.contains x.2 = false)
      (hq : m.instrTable.size ∉ (m.block pre).instrs) :
    Split m (splitPhi l pre m p) p m.instrTable.size pre (ps.filter fun x => l.contains x.2)
      (ps.filter fun x => !l.contains x.2) := by
  have hpq : m.instrTable.size ≠ p := Nat.ne_of_gt hp
  have hplain : (m.instr p).op.isTerminator = false := by rw [hop]; rfl
  have hflow := sameFlow_splitPhi l m ht hplain
  have hins : ps.filter (·.2 ∉ (ps.filter fun x => !l.contains x.2).map (·.2)) =
      ps.filter fun x => l.contains x.2 := by
    refine filter_congr fun x hx => ?_
    rw [Bool.eq_iff_iff,decide_eq_true_eq]
    constructor
    · intro hnot
      by_contra hc
      exact hnot (mem_map.mpr ⟨x,mem_filter.mpr ⟨hx,by simpa using hc⟩,rfl⟩)
    · intro hc hm
      obtain ⟨y,hy,hyx⟩ := mem_map.mp hm
      rw [mem_filter,hyx,hc] at hy
      cases hy.2
  have hinstr := m.instr_newPhi (b := pre) (m.instr p).type
  have hinstrs := m.instrs_newPhi (m.instr p).type hq
  have hmirror : m.Mirror → (m.newPhi pre (m.instr p).type).1.Mirror := fun hm =>
    (hm.makeInstr pre.func .phi (m.instr p).type none []).insertAt pre _ _
  rw [splitPhi_eq l ho hout] at hflow ⊢
  generalize (m.newPhi pre (m.instr p).type).1 = m1 at *
  have hop1 : m1.operands p = arms ps := by
    rw [operands_eq_code,hinstr,if_neg (Ne.symm hpq)]
    exact ho
  have hoq1 : m1.operands m.instrTable.size = [] := by
    rw [operands_eq_code,hinstr,if_pos rfl]
    rfl
  have hcode := code_transfer hpq (ps.filter fun x => !l.contains x.2) m1 hop1 hnd
  have hmirror2 : ∀ (outs : List (Operand × BlockId)) (k : Module), k.Mirror →
      (outs.foldl (fun n x => (n.addIncoming m.instrTable.size x.1 x.2).removeIncoming p x.2)
        k).Mirror := by
    intro outs
    induction outs with
    | nil => exact fun _ hk => hk
    | cons x outs ih => exact fun k hk => ih _ ((hk.addIncoming _ _ _).removeIncoming _ _)
  have hmirror := fun hm => hmirror2 (ps.filter fun x => !l.contains x.2) m1 (hmirror hm)
  generalize (ps.filter fun x => !l.contains x.2).foldl _ m1 = m2 at *
  rw [hoq1,nil_append,hins] at hcode
  have hcode' := code_addIncoming m2 p (.instr m.instrTable.size) pre
  have hop2 : m2.operands p = arms (ps.filter fun x => l.contains x.2) := by
    rw [operands_eq_code,hcode,Code.operands_setOperands]
  rw [hop2,hcode] at hcode'
  have hmirror' : m.Mirror → (m2.addIncoming p (.instr m.instrTable.size) pre).Mirror := fun hm =>
    (hmirror hm).addIncoming p _ pre
  generalize m2.addIncoming p (.instr m.instrTable.size) pre = n at *
  have hall : ∀ i, n.code.instr i = if p = i then { m1.code.instr p with
        operands := arms ((ps.filter fun x => l.contains x.2) ++
          [(Operand.instr m.instrTable.size,pre)]) }
      else if m.instrTable.size = i then { m1.code.instr i with
        operands := arms (ps.filter fun x => !l.contains x.2) }
      else m1.code.instr i := by
    intro i
    rw [hcode']
    simp only [Code.setOperands,Code.modifyInstr,flatMap_append]
    split
    · rfl
    · split
      · rename_i hi
        rw [hi]
      · rfl
  refine ⟨rfl,hflow,?_,⟨(m.newInstr pre.func .phi (m.instr p).type none []).number,?_⟩,
    fun i hip hiq => ?_,fun d => ?_,hmirror'⟩
  · rw [hall,if_pos rfl,hinstr,if_neg (Ne.symm hpq)]
  · rw [hall,if_neg (Ne.symm hpq),if_pos rfl,hinstr,if_pos rfl]
    rfl
  · rw [hall,if_neg (Ne.symm hip),if_neg (Ne.symm hiq),hinstr,if_neg hiq]
  · rw [← hinstrs d,instrs_eq_code,hcode']
    rfl

section
variable {n : Module} {f : FuncId} {e d : BlockId} {ins outs : List (Operand × BlockId)}
  {l : Loop} {todo : List InstrId} {old : List BlockId}

namespace Split

variable (h : Split m n p q pre ins outs)
include h

theorem old_eq (hi : i ≠ q) : Lasts m n i := by
  by_cases hip : i = p
  · subst hip
    exact lasts_of_code h.phi
  · exact lasts_of_code (h.kept i hip hi)

theorem merged_eq : (n.instr q).op = .phi ∧ (n.instr q).type = (m.instr p).type ∧
    (n.instr q).parent = some pre ∧ n.operands q = arms outs := by
  obtain ⟨k,hk⟩ := h.merged
  exact ⟨(congrArg Instr.op hk :),(congrArg Instr.type hk :),(congrArg Instr.parent hk :),
    (congrArg Instr.operands hk :)⟩

theorem operands_phi :
    n.operands p = arms (ins ++ [(Operand.instr q,pre)]) := by rw [operands_eq_code,h.phi]

theorem operands_kept (hp : i ≠ p) (hq : i ≠ q) : n.operands i = m.operands i := by
  rw [operands_eq_code,h.kept i hp hq,operands_eq_code]

theorem rest (d : BlockId) :
    (n.block d).instrs.filter (· ≠ q) = (m.block d).instrs.filter (· ≠ q) := by
  rw [h.instrs]
  split
  · rename_i hd
    rw [hd,m.instrs_eq_phis_append pre]
    simp
  · rfl

theorem mem_iff (hi : i ≠ q) : i ∈ (n.block d).instrs ↔ i ∈ (m.block d).instrs := by
  have := congrArg (i ∈ ·) (h.rest d)
  simpa [hi] using this

theorem subset (d : BlockId) : (m.block d).instrs ⊆ (n.block d).instrs := by
  intro i hi
  rw [h.instrs]
  split
  · rename_i hd
    rw [hd,instrs_eq_phis_append] at hi
    grind
  · exact hi

theorem mem_operands (ho : m.operands p = arms ps) (hins : ins ⊆ ps)
    (houts : outs ⊆ ps) (hv : v ∈ n.operands i) :
    (∃ i', (i' = p ∨ i' = i ∧ i ≠ q) ∧ v ∈ m.operands i') ∨ v = .instr q ∨ v = .block pre := by
  by_cases hip : i = p
  · rw [hip,mem_operands_pairs h.operands_phi] at hv
    obtain ⟨x,hx,hvx⟩ := hv
    rcases mem_append.mp hx with hx | hx
    · exact .inl ⟨p,.inl rfl,(mem_operands_pairs ho).mpr ⟨x,hins hx,hvx⟩⟩
    · rw [mem_singleton.mp hx] at hvx
      exact .inr hvx
  · by_cases hiq : i = q
    · rw [hiq,mem_operands_pairs h.merged_eq.2.2.2] at hv
      obtain ⟨x,hx,hvx⟩ := hv
      exact .inl ⟨p,.inl rfl,(mem_operands_pairs ho).mpr ⟨x,houts hx,hvx⟩⟩
    · rw [h.operands_kept hip hiq] at hv
      exact .inl ⟨i,.inr ⟨rfl,hiq⟩,hv⟩

theorem mem_incoming (ho : m.operands p = arms ps) (hins : ins ⊆ ps)
    (houts : outs ⊆ ps) (hv : (v,Operand.block d) ∈ n.incoming i) :
    (i = p ∧ v = .instr q ∧ d = pre) ∨ ∃ i', (i' = i ∧ i ≠ q ∨ i = q ∧ i' = p) ∧
      (v,Operand.block d) ∈ m.incoming i' := by
  by_cases hiq : i = q
  · rw [hiq,mem_incoming_pairs h.merged_eq.2.2.2] at hv
    obtain ⟨x,hx,hv⟩ := hv
    exact .inr ⟨p,.inr ⟨hiq,rfl⟩,(mem_incoming_pairs ho).mpr ⟨x,houts hx,hv⟩⟩
  · by_cases hip : i = p
    · rw [hip,mem_incoming_pairs h.operands_phi] at hv
      obtain ⟨x,hx,hv,hd⟩ := hv
      rcases mem_append.mp hx with hx | hx
      · exact .inr ⟨p,.inl ⟨hip.symm,hiq⟩,(mem_incoming_pairs ho).mpr ⟨x,hins hx,hv,hd⟩⟩
      · simp_all
    · rw [incoming,h.operands_kept hip hiq] at hv
      exact .inr ⟨i,.inl ⟨rfl,hiq⟩,hv⟩

end Split

/-- The blocks `old` led to the header; now those outside the loop lead to `pre` and `pre` leads to
the header. -/
structure Entrance (m : Module) (e : BlockId) (l : Loop) (pre : BlockId)
    (old : List BlockId) : Prop where
  reached : m.Reaches e l.header
  front : m.Reaches e pre
  entry : e ≠ l.header
  /-- If everything starts at `pre`, nothing that is reached leads back to it. -/
  start : e = pre → ∀ c ∈ m.preds pre, ¬m.Reaches e c
  fresh : pre ∉ old
  header : ∀ c, c ∈ m.preds l.header ↔ c = pre ∨ c ∈ old ∧ l.contains c = true
  outside : ∀ c, c ∈ m.preds pre ↔ c ∈ old ∧ l.contains c = false

theorem Entrance.of_same (h : Entrance m e l pre old) (hs : SameFlow m n) :
    Entrance n e l pre old := by
  have hr := reaches_congr hs.succs
  refine ⟨hr ▸ h.reached,hr ▸ h.front,h.entry,?_,h.fresh,?_,?_⟩ <;> simp only [hs.preds,hr]
  · exact h.start
  · exact h.header
  · exact h.outside

theorem Split.fed (h : Split m n p q pre ins outs) (hE : Entrance m e l pre old)
    (hnd : (ps.map (·.2)).Nodup) (hps : ∀ x ∈ ps, x.2 ∈ old)
      (hall : ∀ c ∈ old, m.Reaches e c → c ∈ ps.map (·.2))
    (hins : ins = ps.filter fun x => l.contains x.2)
    (houts : outs = ps.filter fun x => !l.contains x.2) :
    Fed n e p (n.preds l.header) ∧ Fed n e q (n.preds pre) := by
  subst hins houts
  have hsub : ∀ (g : Operand × BlockId → Bool), ((ps.filter g).map (·.2)).Nodup := fun g =>
    hnd.sublist (filter_sublist.map _)
  have hr := reaches_congr h.flow.succs
  refine ⟨⟨_,h.operands_phi,?_,fun x hx => ?_,fun c hc hcr => ?_⟩,
    ⟨_,h.merged_eq.2.2.2,hsub _,fun x hx => ?_,fun c hc hcr => ?_⟩⟩
  · rw [map_append,nodup_append]
    refine ⟨hsub _,nodup_singleton _,fun c hc c' hc' => ?_⟩
    obtain ⟨x,hx,rfl⟩ := mem_map.mp hc
    rw [mem_singleton.mp hc']
    intro (heq : x.2 = pre)
    exact hE.fresh (heq ▸ hps x (mem_of_mem_filter hx))
  · rw [h.flow.preds,hE.header]
    rcases mem_append.mp hx with hx | hx
    · exact .inr ⟨hps x (mem_of_mem_filter hx),(mem_filter.mp hx).2⟩
    · exact .inl (by rw [mem_singleton.mp hx])
  · rw [h.flow.preds,hE.header] at hc
    rw [hr] at hcr
    rw [map_append,mem_append]
    rcases hc with rfl | ⟨hc,hcl⟩
    · exact .inr (by simp)
    · obtain ⟨x,hx,rfl⟩ := mem_map.mp (hall c hc hcr)
      exact .inl (mem_map.mpr ⟨x,mem_filter.mpr ⟨hx,hcl⟩,rfl⟩)
  · rw [h.flow.preds,hE.outside]
    obtain ⟨hx,hxl⟩ := mem_filter.mp hx
    exact ⟨hps x hx,by simpa using hxl⟩
  · rw [h.flow.preds,hE.outside] at hc
    rw [hr] at hcr
    obtain ⟨x,hx,rfl⟩ := mem_map.mp (hall c hc.1 hcr)
    exact mem_map.mpr ⟨x,mem_filter.mpr ⟨hx,by simp [hc.2]⟩,rfl⟩

theorem Sound.ne_size (hS : Sound m f e todo old) (hd : d ∈ (m.func f).layout)
    (hi : i ∈ (m.block d).instrs) :
    i ≠ m.instrTable.size := Fronted.ne_size_of_parent (hS.parent d hd i hi)

/-- The pairs of a phi that is still to be split, and the phi once it is. -/
theorem Sound.exists_splitPhi (hS : Sound m f e todo old) (hE : Entrance m e l pre old)
    (ht : m.Ends pre t) (hp : p ∈ todo) (hph : p ∈ (m.block l.header).instrs)
    (hop : (m.instr p).op = .phi)
    (hout : ∃ v c, (v,Operand.block c) ∈ m.incoming p ∧ l.contains c = false) :
    ∃ ps, m.operands p = arms ps ∧ (ps.map (·.2)).Nodup ∧
      (∀ x ∈ ps, x.2 ∈ old) ∧ (∀ c ∈ old, m.Reaches e c → c ∈ ps.map (·.2)) ∧
      Split m (splitPhi l pre m p) p m.instrTable.size pre (ps.filter fun x => l.contains x.2)
        (ps.filter fun x => !l.contains x.2) := by
  obtain ⟨ps,ho,hnd,hps,hall⟩ := hS.fed _ (hS.flow.mem_layout hE.reached) p hph hop
  rw [if_pos hp] at hps hall
  refine ⟨ps,ho,hnd,hps,hall,split_splitPhi l ht
    (lt_size_of_ne fun hd => by rw [hd] at hop; cases hop) hop ho hnd ?_
    fun hq => hS.ne_size (hS.flow.mem_layout hE.front) hq rfl⟩
  obtain ⟨v,c,hv,hc⟩ := hout
  obtain ⟨x,hx,_,hxc⟩ := (mem_incoming_pairs ho).mp hv
  exact ⟨x,hx,Operand.block.inj hxc ▸ hc⟩

theorem Sound.split {w : Purity} (hS : Sound m f e (p :: todo) old) (hE : Entrance m e l pre old)
    (ht : m.Ends pre t) (hp : p ∈ (m.block l.header).instrs) (hop : (m.instr p).op = .phi)
    (hpt : p ∉ todo) (htodo : ∀ i ∈ todo, i ∈ (m.block l.header).instrs)
    (hout : ∃ v c, (v,Operand.block c) ∈ m.incoming p ∧ l.contains c = false) :
    Sound (splitPhi l pre m p) f e todo old ∧ Stays w f m (splitPhi l pre m p) := by
  have hhl := hS.flow.mem_layout hE.reached
  have hpl := hS.flow.mem_layout hE.front
  have hpi := mem_instrs_iff.mpr ⟨_,hhl,hp⟩
  obtain ⟨ps,ho,hnd,hps,hall,hsp⟩ := hS.exists_splitPhi hE ht mem_cons_self hp hop hout
  generalize splitPhi l pre m p = n at *
  have hfed := hsp.fed hE hnd hps hall rfl rfl
  have hread : ∀ {i}, Operand.instr m.instrTable.size ∉ m.operands i :=
    fun hi => Nat.lt_irrefl _ (hS.mirror.instr_lt hi)
  have hold : ∀ {c i}, c ∈ (m.func f).layout → i ∈ (m.block c).instrs →
    i ≠ m.instrTable.size := hS.ne_size
  generalize m.instrTable.size = q at *
  have hlayout := hsp.flow.layout f
  have hreach := reaches_congr hsp.flow.succs
  have hplace : ∀ c ∈ (m.func f).layout, (q ∈ (n.block c).instrs ↔ c = pre) := by
    intro c hc
    rw [hsp.instrs]
    split
    · rename_i hcp
      simp [hcp]
    · rename_i hcp
      exact iff_of_false (fun hq => hold hc hq rfl) hcp
  have hpq : p ≠ q := hold hhl hp
  have hqi : q ∈ n.instrs f := mem_instrs_iff.mpr ⟨pre,hlayout ▸ hpl,(hplace pre hpl).mpr rfl⟩
  have hinstrs : ∀ {i}, i ≠ q → (i ∈ n.instrs f ↔ i ∈ m.instrs f) := fun hi => by
    simp only [mem_instrs_iff,hlayout,hsp.mem_iff hi]
  have hreads : ∀ {i v}, v ∈ n.operands i → i ∈ n.instrs f →
      (∃ i' ∈ m.instrs f, v ∈ m.operands i') ∨ v = .instr q ∨ v = .block pre := by
    intro i v hv hi
    refine (hsp.mem_operands ho (filter_subset_self _) (filter_subset_self _) hv).imp_left ?_
    rintro ⟨i',rfl | ⟨rfl,hiq⟩,hv'⟩
    · exact ⟨i',hpi,hv'⟩
    · exact ⟨i',(hinstrs hiq).mp hi,hv'⟩
  have havail : ∀ {c xs xs' j}, (∀ k ∈ xs', k ∈ xs) →
    Available m (fun c => (m.block c).instrs) e c xs' j →
      Available n (fun c => (n.block c).instrs) e c xs j := fun hsub ha =>
    (available_congr hsp.flow.succs).mpr (ha.mono_line hsub hsp.subset)
  have hphi : ∀ {r c}, r ≠ q → r ∈ (n.block c).instrs → (n.instr r).op = .phi →
    r ∈ (m.block c).instrs ∧ (m.instr r).op = .phi :=
    fun hr hrc hrop => ⟨(hsp.mem_iff hr).mp hrc,(hsp.old_eq hr).op ▸ hrop⟩
  have hqt : q ∉ todo := fun hq => hold hhl (htodo q hq) rfl
  refine ⟨⟨hsp.flow.controlFlow hS.flow,hsp.mirror hS.mirror,fun c hc => ?_,fun c hc i hi => ?_,
    fun c hc => ?_,fun i hi v hv => ?_,
    fun i hi j hj => ?_,fun i hi j hj => ?_,fun i hi hiop => ?_,fun i hi hiop => ?_,
    fun c hc r hr hrop => ?_,⟨?_,?_,?_⟩,?_⟩,
    ⟨fun c hc => ⟨hlayout.symm ▸ hc,fun i hi hf => ?_⟩,fun i hi => ?_⟩⟩
  · rw [hlayout] at hc
    rw [hsp.instrs]
    split
    · rw [nodup_middle,nodup_cons,← instrs_eq_phis_append]
      exact ⟨fun hq => hold hpl hq rfl,hS.nodup pre hpl⟩
    · exact hS.nodup c hc
  · rw [hlayout] at hc
    by_cases hiq : i = q
    · rw [hiq,hsp.merged_eq.2.2.1,(hplace c hc).mp (hiq ▸ hi)]
    · rw [(hsp.old_eq hiq).parent]
      exact hS.parent c hc i ((hsp.mem_iff hiq).mp hi)
  · rw [hlayout] at hc
    have hord := hS.ordered c hc
    rw [hsp.instrs]
    split
    · rename_i hcp
      rw [hcp,instrs_eq_phis_append,pairwise_append] at hord
      obtain ⟨h1,h2,h3⟩ := hord
      have hqn : ∀ {i}, i ∈ m.phis pre ++ m.body pre → i ≠ q := fun hi =>
        hold hpl (instrs_eq_phis_append m pre ▸ hi)
      have hold' : ∀ {i}, i ∈ m.phis pre ++ m.body pre → (n.instr i).op = (m.instr i).op :=
        fun hi => (hsp.old_eq (hqn hi)).op
      refine pairwise_append.mpr ⟨?_,pairwise_cons.mpr ⟨fun _ _ _ => hsp.merged_eq.1,?_⟩,
        fun i hi j hj hjop => ?_⟩
      · refine h1.imp_of_mem fun {i j} hi hj hij => ?_
        rw [hold' (mem_append_left _ hi),hold' (mem_append_left _ hj)]
        exact hij
      · refine h2.imp_of_mem fun {i j} hi hj hij => ?_
        rw [hold' (mem_append_right _ hi),hold' (mem_append_right _ hj)]
        exact hij
      · rw [hold' (mem_append_left _ hi)]
        exact op_of_mem_phis hi
    · refine hord.imp_of_mem fun {i j} hi hj hij => ?_
      rw [(hsp.old_eq (hold hc hi)).op,(hsp.old_eq (hold hc hj)).op]
      exact hij
  · rcases hreads hv hi with ⟨i',hi',hv⟩ | rfl | rfl
    · exact hS.owned i' hi' v hv
    · trivial
    · exact hS.flow.owned pre hpl
  · rcases hreads hj hi with ⟨i',hi',hj⟩ | hjq | hjq
    · have hjq : j ≠ q := by
        rintro rfl
        exact hread hj
      rw [(hsp.old_eq hjq).parent]
      exact hS.home i' hi' j hj
    · rw [Operand.instr.inj hjq,hsp.merged_eq.2.2.1]
      exact ⟨pre,rfl,hS.flow.owned pre hpl⟩
    · cases hjq
  · rcases hreads hj hi with ⟨i',hi',hj⟩ | hjq | hjq
    · have hjq : j ≠ q := by
        rintro rfl
        exact hread hj
      rw [(hsp.old_eq hjq).type]
      exact hS.valued i' hi' j hj
    · rw [Operand.instr.inj hjq,hsp.merged_eq.2.1]
      exact hS.typed p hpi hop
    · cases hjq
  · by_cases hiq : i = q
    · rw [hiq,hsp.merged_eq.2.1]
      exact hS.typed p hpi hop
    · rw [(hsp.old_eq hiq).op] at hiop
      rw [(hsp.old_eq hiq).type]
      exact hS.typed i ((hinstrs hiq).mp hi) hiop
  · have hiq : i ≠ q := by
      rintro rfl
      rw [hsp.merged_eq.1] at hiop
      cases hiop
    rw [(hsp.old_eq hiq).op] at hiop
    have hip : i ≠ p := by
      rintro rfl
      rw [hop] at hiop
      cases hiop
    rw [hsp.operands_kept hip hiq]
    exact hS.load i ((hinstrs hiq).mp hi) hiop
  · rw [hlayout] at hc
    by_cases hrq : r = q
    · rw [hrq,if_neg hqt,(hplace c hc).mp (hrq ▸ hr)]
      exact hfed.2
    · obtain ⟨hrc,hrop⟩ := hphi hrq hr hrop
      by_cases hrp : r = p
      · rw [hrp,if_neg hpt,hS.block_unique hc hhl (hrp ▸ hrc) hp]
        exact hfed.1
      · have := hS.fed c hc r hrc hrop
        rw [Fed,hsp.operands_kept hrp hrq,hreach,hsp.flow.preds]
        simpa [Fed,hrp] using this
  · intro c hc xs k ys hs hkop j hj
    rw [hreach] at hc
    have hkq : k ≠ q := by
      rintro rfl
      exact hkop hsp.merged_eq.1
    rw [(hsp.old_eq hkq).op] at hkop
    have hkp : k ≠ p := by
      rintro rfl
      exact hkop hop
    rw [hsp.operands_kept hkp hkq] at hj
    obtain ⟨xs',ys',hs',hsub⟩ := exists_split (hsp.rest c) hkq hs
    refine havail (fun x hx => hsub x hx ?_) (hS.ssa.dominated c hc xs' k ys' hs' hkop j hj)
    exact hold (hS.flow.mem_layout hc) (hs' ▸ mem_append_left _ hx)
  · intro c hc r hr hrop x hx j hj
    rw [hreach] at hc hx
    rcases hsp.mem_incoming ho (filter_subset_self _) (filter_subset_self _) hj
      with ⟨_,hjq,hxp⟩ | ⟨r',hr',hj'⟩
    · rw [Operand.instr.inj hjq,hxp]
      exact Or.inl ((hplace pre hpl).mpr rfl)
    · refine havail (hsp.subset x) ?_
      rcases hr' with ⟨rfl,hrq⟩ | ⟨rfl,rfl⟩
      · obtain ⟨hrc,hrop⟩ := hphi hrq hr hrop
        exact hS.ssa.phi_dominated c hc r' hrc hrop x hx j hj'
      · exact hS.ssa.phi_dominated _ hE.reached r' hp hop x hx j hj'
  · intro i hi u hu
    rw [(hsp.mirror hS.mirror).mem_uses_iff (v := .instr i) (by simp)] at hu
    by_cases huq : u = q
    · exact huq ▸ hqi
    · by_cases hup : u = p
      · exact (hinstrs huq).mpr (hup ▸ hpi)
      · rw [hsp.operands_kept hup huq] at hu
        have hiq : i ≠ q := by
          rintro rfl
          exact hread hu
        refine (hinstrs huq).mpr (hS.ssa.linked i ((hinstrs hiq).mp hi) u ?_)
        exact (hS.mirror.mem_uses_iff (v := .instr i) (by simp) u).mpr hu
  · intro c hc hcr r hr hrop
    rw [hsp.flow.preds] at hc
    rw [hreach] at hcr ⊢
    by_cases hrq : r = q
    · have hep := (hplace e hS.flow.entry_mem).mp (hrq ▸ hr)
      exact absurd hcr (hE.start hep c (hep ▸ hc))
    · obtain ⟨hrc,hrop⟩ := hphi hrq hr hrop
      have hrp : r ≠ p := by
        rintro rfl
        exact hE.entry (hS.block_unique hS.flow.entry_mem hhl hrc hp)
      rw [incoming,hsp.operands_kept hrp hrq]
      exact hS.entry c hc hcr r hrc hrop
  · have hiq := hold hc hi
    refine ⟨hsp.subset c hi,
      (fixed_congr (hsp.old_eq hiq).op fun hcall => hsp.operands_kept ?_ hiq).mpr hf⟩
    rintro rfl
    rw [hop] at hcall
    cases hcall
  · obtain ⟨c,hc,hic⟩ := mem_instrs_iff.mp hi
    exact mem_instrs_iff.mpr ⟨c,hlayout.symm ▸ hc,hsp.subset c hic⟩

end
end Hoisting
end CMinusF
