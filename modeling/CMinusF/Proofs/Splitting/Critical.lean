import CMinusF.Proofs.Promotion.Correct
import CMinusF.Proofs.Splitting.Runs

/-! All critical edges into blocks with phis get a block each, and nothing else changes. -/
namespace CMinusF
open CMinusF.Module CMinusF.Hoisting CMinusF.Run List

namespace Module

def criticalInto (m : Module) (s : BlockId) : List BlockId :=
  if (m.phis s).isEmpty then [] else (m.preds s).filter (m.isCritical · s)

def criticalEdges (m : Module) (f : FuncId) : List (BlockId × BlockId) :=
  (m.func f).layout.flatMap fun s => (m.criticalInto s).map (·,s)

/-- A block with one predecessor and one successor that does nothing but branch. -/
def IsBridge (m : Module) (b : BlockId) : Prop :=
  ∃ p s t, m.preds b = [p] ∧ m.succs b = [s] ∧ (m.block b).instrs = [t] ∧ (m.instr t).op = .br ∧
    m.operands t = [.block s]

theorem isCritical_eq {m n : Module} {p s : BlockId} (hp : (n.succs p).length = (m.succs p).length)
    (hs : (n.preds s).length = (m.preds s).length) :
    n.isCritical p s = m.isCritical p s := by
  have h1 : (n.block p).succs.length = (m.block p).succs.length := hp
  have h2 : (n.block s).preds.length = (m.block s).preds.length := hs
  rw [isCritical,isCritical,h1,h2]

theorem mem_criticalInto {m : Module} {p s : BlockId} : p ∈ m.criticalInto s ↔
    p ∈ m.preds s ∧ m.phis s ≠ [] ∧ 1 < (m.succs p).length ∧ 1 < (m.preds s).length := by
  unfold criticalInto
  split
  · rename_i h
    simp [isEmpty_iff.mp h]
  · rename_i h
    rw [List.isEmpty_iff] at h
    simp [h,isCritical,Module.succs,Module.preds]

theorem mem_criticalEdges {m : Module} {f : FuncId} {p s : BlockId} : (p,s) ∈ m.criticalEdges f ↔
    s ∈ (m.func f).layout ∧
    p ∈ m.preds s ∧ m.phis s ≠ [] ∧ 1 < (m.succs p).length ∧ 1 < (m.preds s).length := by
  rw [criticalEdges,mem_flatMap]
  constructor
  · rintro ⟨s',hs',h⟩
    obtain ⟨p',hp',heq⟩ := mem_map.mp h
    cases heq
    exact ⟨hs',mem_criticalInto.mp hp'⟩
  · rintro ⟨hs,h⟩
    exact ⟨s,hs,mem_map.mpr ⟨p,mem_criticalInto.mpr h,rfl⟩⟩

theorem phis_of_isBridge {m : Module} {b : BlockId} (h : m.IsBridge b) : m.phis b = [] := by
  obtain ⟨p,s,t,-,-,hi,hop,-⟩ := h
  rw [Module.phis,hi,takeWhile_cons_of_neg (by simp [hop])]

end Module

/-- What is seen of a module after edges to some of the blocks `T` of a function have been split. -/
structure Expanded (T : BlockId → Prop) (m n : Module) (f : FuncId) (e e' : BlockId) : Prop where
  splittable : Splittable n f e'
  layout : (m.func f).layout.Sublist (n.func f).layout
  succs : ∀ d ∈ (m.func f).layout, (n.succs d).length = (m.succs d).length
  preds : ∀ d ∈ (m.func f).layout, (n.preds d).length = (m.preds d).length
  phis : ∀ d ∈ (m.func f).layout, n.phis d = m.phis d
  bridges : ∀ b ∈ (n.func f).layout, b ∉ (m.func f).layout → n.IsBridge b
  kept : ∀ b ∈ (m.func f).layout, m.IsBridge b → n.IsBridge b
  funcs : n.funcs = m.funcs
  signature : ∀ g, (n.func g).name = (m.func g).name ∧ (n.func g).params = (m.func g).params
  slowed : ¬T e → e' = e ∧ Slowed m n

section
variable {T : BlockId → Prop} {m n k : Module} {f : FuncId} {e e' e'' p s b d : BlockId}

namespace Expanded

theorem refl (T : BlockId → Prop) (h : Splittable m f e) : Expanded T m m f e e :=
  ⟨h,.refl _,fun _ _ => rfl,fun _ _ => rfl,fun _ _ => rfl,fun _ hb hn => absurd hb hn,
    fun _ _ h => h,rfl,fun _ => ⟨rfl,rfl⟩,fun _ => ⟨rfl,.refl m⟩⟩

theorem trans (h : Expanded T m n f e e') (h' : Expanded T n k f e' e'') :
    Expanded T m k f e e'' where
  splittable := h'.splittable
  layout := h.layout.trans h'.layout
  succs d hd := (h'.succs d (h.layout.subset hd)).trans (h.succs d hd)
  preds d hd := (h'.preds d (h.layout.subset hd)).trans (h.preds d hd)
  phis d hd := (h'.phis d (h.layout.subset hd)).trans (h.phis d hd)
  bridges b hb hn := by
    by_cases hbn : b ∈ (n.func f).layout
    · exact h'.kept b hbn (h.bridges b hbn hn)
    · exact h'.bridges b hb hbn
  kept b hb hm := h'.kept b (h.layout.subset hb) (h.kept b hb hm)
  funcs := h'.funcs.trans h.funcs
  signature g :=
    ⟨(h'.signature g).1.trans (h.signature g).1,(h'.signature g).2.trans (h.signature g).2⟩
  slowed hT := by
    obtain ⟨rfl,hs⟩ := h.slowed hT
    obtain ⟨rfl,hs'⟩ := h'.slowed hT
    exact ⟨rfl,hs.trans hs'⟩

theorem isCritical (h : Expanded T m n f e e') (hp : p ∈ (m.func f).layout)
    (hs : s ∈ (m.func f).layout) : n.isCritical p s = m.isCritical p s :=
  isCritical_eq (h.succs p hp) (h.preds s hs)

end Expanded

namespace Bridged

theorem isBridge_new (h : Bridged m n f e p s b) : n.IsBridge b := by
  have hop := congrArg Instr.op h.branch
  exact ⟨p,s,_,by rw [h.preds,if_pos rfl],by rw [h.succs,if_pos rfl],by rw [h.instrs,if_pos rfl],
    hop,h.operands_new⟩

/-- A block that only branches is at neither end of a critical edge into phis. -/
theorem isBridge_old (h : Bridged m n f e p s b) (hcrit : m.isCritical p s = true)
    (hphis : m.phis s ≠ []) (hd : d ∈ (m.func f).layout) (hm : m.IsBridge d) : n.IsBridge d := by
  have hds : d ≠ s := by
    rintro rfl
    exact hphis (phis_of_isBridge hm)
  obtain ⟨q,r,t,hp,hs,hi,hop,hops⟩ := hm
  have hdp : d ≠ p := by
    rintro rfl
    have hlen : (m.block d).succs.length = 1 := congrArg length hs
    rw [Module.isCritical,hlen] at hcrit
    cases hcrit
  have hdb := h.ne hd
  have hparent : (m.instr t).parent = some d :=
    ((blockChecked h.verified hd).instr [] t [] hi).parent
  have hkept : n.code.instr t = m.code.instr t := by
    refine h.kept t (Fronted.ne_size_of_parent hparent)
      (fun hend => hdp (Option.some.inj (hparent.symm.trans hend.parent))) fun hphi => ?_
    rw [op_of_mem_phis hphi] at hop
    cases hop
  refine ⟨q,r,t,?_,?_,?_,(op_of_code hkept).trans hop,?_⟩
  · rw [h.preds,if_neg hdb,if_neg hds,hp]
  · rw [h.succs,if_neg hdb,if_neg hdp,hs]
  · rw [h.instrs_old hdb,hi]
  · rw [operands_eq_code,hkept,← operands_eq_code,hops]

theorem expanded (h : Bridged m n f e p s b) (hm : Splittable m f e)
    (hcrit : m.isCritical p s = true) (hphis : m.phis s ≠ []) (hT : T s) :
    Expanded T m n f e (if e = s then b else e) where
  splittable := h.splittable hm
  layout := by
    rw [h.layout,if_pos rfl]
    conv_lhs => rw [← take_append_drop ((m.func f).layout.idxOf s) (m.func f).layout]
    exact List.Sublist.append_left (sublist_cons_self _ _) _
  succs d hd := h.length_succs (hm.succs_nodup p h.source_mem) (h.ne hd)
  preds d hd := h.length_preds (h.ne hd)
  phis d hd := h.phis_old h.verified hd
  bridges d hd hnd := by
    rcases h.mem_layout_iff.mp hd with hd | ⟨-,rfl⟩
    · exact absurd hd hnd
    · exact h.isBridge_new
  kept d hd hb := h.isBridge_old hcrit hphis hd hb
  funcs := h.funcs
  signature := h.signature
  slowed he := by
    have hes : e ≠ s := by
      rintro rfl
      exact he hT
    rw [if_neg hes]
    exact ⟨rfl,(h.rerouted hm.toSealed hes).slowed hm.toSealed⟩

end Bridged

def Relieved (m : Module) (s : BlockId) : Prop := ∀ q ∈ m.preds s, m.isCritical q s = false

/-- The edges to one block are looked at in turn; those that are split come from blocks that are not
looked at again. -/
theorem foldl_splitIfCritical (hs : s ∈ (m.func f).layout) (hphis : m.phis s ≠ [])
    (todo : List BlockId) (hnd : todo.Nodup) (hT : ∀ q ∈ todo, m.isCritical q s = true → T s)
    (hm : Splittable m f e) (htodo : ∀ q ∈ todo, q ∈ m.preds s)
    (hrest : ∀ q ∈ m.preds s, q ∈ todo ∨ m.isCritical q s = false) (c : Nat) :
    ∃ n e', todo.foldl (splitIfCritical f s) ⟨m,c,none⟩ =
      ⟨n,c + (todo.filter (m.isCritical · s)).length,none⟩ ∧
      Expanded T m n f e e' ∧ Relieved n s ∧ ∀ d ∈ (m.func f).layout, d ≠ s →
        n.preds d = m.preds d := by
  induction todo generalizing m e c with
  | nil =>
    exact ⟨m,e,rfl,.refl T hm,fun q hq => (hrest q hq).resolve_left not_mem_nil,fun _ _ _ => rfl⟩
  | cons p todo ih =>
    obtain ⟨hp,hnd⟩ := nodup_cons.mp hnd
    rw [foldl_cons]
    cases hcrit : m.isCritical p s with
    | false =>
      have hstep : splitIfCritical f s ⟨m,c,none⟩ p = ⟨m,c,none⟩ := by
        rw [splitIfCritical]
        simp [hcrit]
      rw [hstep,filter_cons_of_neg (by simp [hcrit])]
      refine ih hs hphis hnd (fun q hq => hT q (mem_cons_of_mem _ hq)) hm
        (fun q hq => htodo q (mem_cons_of_mem _ hq)) (fun q hq => ?_) c
      rcases hrest q hq with hq | hq
      · grind
      · exact .inr hq
    | true =>
      obtain ⟨n,b,hsplit,hB⟩ :=
        exists_bridged hm.flow (hm.verified f hm.listed) hs (htodo p mem_cons_self)
      have hstep : splitIfCritical f s ⟨m,c,none⟩ p = ⟨n,c + 1,none⟩ := by
        rw [splitIfCritical]
        simp [hcrit,hsplit]
      have hE := hB.expanded hm hcrit hphis (hT p mem_cons_self hcrit)
      have hsame : ∀ q ∈ m.preds s, n.isCritical q s = m.isCritical q s := fun q hq =>
        hE.isCritical (hm.flow.inward s hs q hq) hs
      have hin : ∀ q ∈ todo, q ∈ m.preds s := fun q hq => htodo q (mem_cons_of_mem _ hq)
      have hpreds : n.preds s = (m.preds s).filter (· ≠ p) ++ [b] := by
        rw [hB.preds,if_neg (hB.ne hs),if_pos rfl]
      obtain ⟨n',e'',hfold,hE',hrel,hkeep⟩ :=
        ih (hE.layout.subset hs) (by rw [hE.phis s hs]; exact hphis) hnd
        (fun q hq hc => hT q (mem_cons_of_mem _ hq) (by rw [← hsame q (hin q hq)]; exact hc))
          hE.splittable
        (fun q hq => by
          rw [hpreds]
          exact mem_append_left _
            (mem_filter.mpr ⟨hin q hq,decide_eq_true fun heq => hp (heq ▸ hq)⟩))
        (fun q hq => by
          rw [hpreds,mem_append,mem_filter,mem_singleton] at hq
          rcases hq with ⟨hq,hqp⟩ | rfl
          · grind
          · -- the new block has one successor
            have hlen : (n.block q).succs.length = 1 :=
              congrArg length ((hB.succs q).trans (if_pos rfl))
            exact .inr (by rw [Module.isCritical,hlen]; rfl))
        (c + 1)
      have hfilter : todo.filter (n.isCritical · s) = todo.filter (m.isCritical · s) :=
        filter_congr fun q hq => hsame q (hin q hq)
      refine ⟨n',e'',?_,hE.trans hE',hrel,fun d hd hds => ?_⟩
      · rw [hstep,hfold,hfilter,filter_cons_of_pos (by simp [hcrit]),length_cons,Nat.add_assoc,
          Nat.add_comm 1]
      · rw [hkeep d (hE.layout.subset hd) hds,hB.preds,if_neg (hB.ne hd),if_neg hds]

theorem foldl_splitInto (todo : List BlockId) (hnd : todo.Nodup)
    (hT : ∀ s ∈ todo, m.criticalInto s ≠ [] → T s) (hm : Splittable m f e)
    (htodo : ∀ s ∈ todo, s ∈ (m.func f).layout) (c : Nat) :
    ∃ n e', todo.foldl (splitInto f) ⟨m,c,none⟩ =
      ⟨n,c + (todo.flatMap fun s => m.criticalInto s).length,none⟩ ∧ Expanded T m n f e e' ∧
      (∀ s ∈ todo, n.phis s ≠ [] → Relieved n s) ∧ ∀ d ∈ (m.func f).layout, d ∉ todo →
        n.preds d = m.preds d := by
  induction todo generalizing m e c with
  | nil => exact ⟨m,e,rfl,.refl T hm,fun s hs => (not_mem_nil hs).elim,fun _ _ _ => rfl⟩
  | cons s todo ih =>
    obtain ⟨hs,hnd⟩ := nodup_cons.mp hnd
    have hsl := htodo s mem_cons_self
    -- one block, whether it has phis or not
    obtain ⟨n,e',hstep,hE,hrel,hkeep⟩ : ∃ n e', splitInto f ⟨m,c,none⟩ s =
      ⟨n,c + (m.criticalInto s).length,none⟩ ∧ Expanded T m n f e e' ∧
        (n.phis s ≠ [] → Relieved n s) ∧ ∀ d ∈ (m.func f).layout, d ≠ s →
          n.preds d = m.preds d := by
      by_cases hphis : m.phis s = []
      · refine ⟨m,e,?_,.refl T hm,fun h => absurd hphis h,fun _ _ _ => rfl⟩
        rw [splitInto,criticalInto]
        simp [hphis]
      · have hinto : m.criticalInto s = (m.preds s).filter (m.isCritical · s) := by
          rw [criticalInto,if_neg (by simp [hphis])]
        obtain ⟨n,e',hfold,hE,hrel,hkeep⟩ :=
          foldl_splitIfCritical hsl hphis (m.preds s) (hm.flow.preds_nodup s hsl)
          (fun q hq hc => hT s mem_cons_self
            (by rw [hinto]; exact ne_nil_of_mem (mem_filter.mpr ⟨hq,hc⟩)))
          hm (fun q hq => hq) (fun q hq => .inl hq) c
        refine ⟨n,e',?_,hE,fun _ => hrel,hkeep⟩
        rw [hinto,← hfold,splitInto]
        simp [hphis,Module.preds]
    have hsame : ∀ t ∈ todo, n.criticalInto t = m.criticalInto t := by
      intro t ht
      have htl := htodo t (mem_cons_of_mem _ ht)
      have hts : t ≠ s := fun heq => hs (heq ▸ ht)
      rw [criticalInto,criticalInto,hE.phis t htl,hkeep t htl hts]
      split
      · rfl
      · exact filter_congr fun q hq => hE.isCritical (hm.flow.inward t htl q hq) htl
    obtain ⟨n',e'',hfold,hE',hrel',hkeep'⟩ :=
      ih hnd (fun t ht hc => hT t (mem_cons_of_mem _ ht) (by rwa [hsame t ht] at hc))
      hE.splittable (fun t ht => hE.layout.subset (htodo t (mem_cons_of_mem _ ht)))
        (c + (m.criticalInto s).length)
    have hflat : (todo.flatMap fun t => n.criticalInto t) =
      todo.flatMap fun t => m.criticalInto t := flatMap_congr hsame
    refine ⟨n',e'',?_,hE.trans hE',fun t ht hphis => ?_,fun d hd hdt => ?_⟩
    · rw [foldl_cons,hstep,hfold,hflat,flatMap_cons,length_append,Nat.add_assoc]
    · rcases mem_cons.mp ht with rfl | ht
      · -- what has been relieved stays so
        have htl := hE.layout.subset hsl
        intro q hq
        rw [hkeep' t htl hs] at hq
        rw [hE'.isCritical (hE.splittable.flow.inward t htl q hq) htl]
        exact hrel (by rwa [hE'.phis t htl] at hphis) q hq
      · exact hrel' t ht hphis
    · rw [mem_cons,not_or] at hdt
      rw [hkeep' d (hE.layout.subset hd) hdt.2,hkeep d hd hdt.1]

theorem splitCriticalEdges_of_nil (h : m.criticalEdges f = []) :
    m.splitCriticalEdges f = ⟨m,0,none⟩ := by
  refine foldlRecOn (m.func f).layout (splitInto f) (motive := (· = ⟨m,0,none⟩)) rfl
    fun r hr s hs => ?_
  subst hr
  unfold splitInto
  split
  · rfl
  · rename_i hphis
    refine foldlRecOn (m.block s).preds (splitIfCritical f s)
      (motive := (· = ⟨m,0,none⟩)) rfl fun r hr p hp => ?_
    subst hr
    have hcrit : m.isCritical p s = false := by
      refine eq_false_of_ne_true fun hcrit => ?_
      rw [Module.isCritical,Bool.and_eq_true,decide_eq_true_eq,decide_eq_true_eq] at hcrit
      have : (p,s) ∈ m.criticalEdges f := mem_criticalEdges.mpr ⟨hs,hp,by simpa using hphis,hcrit⟩
      rw [h] at this
      cases this
    rw [splitIfCritical]
    simp [hcrit]

theorem nodup_criticalEdges (hm : Splittable m f e) : (m.criticalEdges f).Nodup := by
  refine nodup_flatMap.mpr ⟨fun s hs => ?_,?_⟩
  · refine List.Nodup.map (fun p q heq => (Prod.mk.inj heq).1) ?_
    unfold criticalInto
    split
    · exact nodup_nil
    · exact (hm.flow.preds_nodup s hs).filter _
  · refine hm.flow.nodup.imp fun {s t} hst x hx hx' => hst ?_
    grind

theorem exists_expanded (hm : Splittable m f e) :
    ∃ n e', m.splitCriticalEdges f = ⟨n,(m.criticalEdges f).length,none⟩ ∧
    Expanded (fun s => ∃ p, (p,s) ∈ m.criticalEdges f) m n f e e' ∧ n.criticalEdges f = [] := by
  obtain ⟨n,e',hfold,hE,hrel,-⟩ :=
    foldl_splitInto (T := fun s => ∃ p, (p,s) ∈ m.criticalEdges f) (m.func f).layout hm.flow.nodup
    (fun s hs hne => by
      obtain ⟨p,hp⟩ := exists_mem_of_ne_nil _ hne
      exact ⟨p,mem_criticalEdges.mpr ⟨hs,mem_criticalInto.mp hp⟩⟩) hm (fun s hs => hs) 0
  have hlen : ((m.func f).layout.flatMap fun s => m.criticalInto s).length =
      (m.criticalEdges f).length := by
    rw [criticalEdges,length_flatMap,length_flatMap]
    simp only [length_map]
  refine ⟨n,e',?_,hE,eq_nil_iff_forall_not_mem.mpr ?_⟩
  · rw [splitCriticalEdges,hfold,hlen,Nat.zero_add]
  · rintro ⟨p,s⟩ hps
    obtain ⟨hs,hp,hphis,hcrit⟩ := mem_criticalEdges.mp hps
    by_cases hsm : s ∈ (m.func f).layout
    · have := hrel s hsm hphis p hp
      rw [Module.isCritical,Bool.and_eq_false_iff,decide_eq_false_iff_not,
        decide_eq_false_iff_not] at this
      exact this.elim (fun h => h hcrit.1) fun h => h hcrit.2
    · exact hphis (phis_of_isBridge (hE.bridges s hs hsm))

end

/-- Two calls have left the machine in the same state, and have returned the same value or met the
same fault. -/
def Agree (r r' : Machine × Except RunError Datum) : Prop :=
  r'.1 = r.1 ∧ r'.2.mapError RunError.kind = r.2.mapError RunError.kind

theorem Reports.agree {x : Except Fault Datum} {r r' : Except RunError Datum} (h : Reports x r)
    (h' : Reports x r') (mc : Machine) :
    Agree (mc,r) (mc,r') := by
  cases h <;> cases h' <;> exact ⟨rfl,rfl⟩

/-- Calls by name, with what the longer way takes added to the budget. -/
theorem Slowed.call {m n : Module} (h : Slowed m n) (hfuncs : n.funcs = m.funcs)
    (hsig : ∀ g, (n.func g).name = (m.func g).name ∧ (n.func g).params = (m.func g).params)
    (w : World) (name : String) (args : List Datum) :
    (∀ k, ¬Spent ((⟨k,w⟩ : Machine).call m name args).2 →
      ∃ d, Agree ((⟨k,w⟩ : Machine).call m name args) ((⟨k + d,w⟩ : Machine).call n name args)) ∧
    ∀ k, ¬Spent ((⟨k,w⟩ : Machine).call n name args).2 →
      ∃ d ≤ k, Agree ((⟨k - d,w⟩ : Machine).call m name args)
        ((⟨k,w⟩ : Machine).call n name args) := by
  rcases Machine.call_cases hfuncs (fun g _ => (hsig g).1) (fun g _ => (hsig g).2) name args
    with ⟨x,-,hx⟩ | ⟨f,-,hf⟩
  · refine ⟨fun k _ => ⟨0,?_⟩,fun k _ => ⟨0,Nat.zero_le k,?_⟩⟩
    · rw [(hx ⟨k,w⟩).1,(hx ⟨k + 0,w⟩).2]
      exact ⟨rfl,rfl⟩
    · rw [(hx ⟨k - 0,w⟩).1,(hx ⟨k,w⟩).2]
      exact ⟨rfl,rfl⟩
  · refine ⟨fun k hk => ?_,fun k hk => ?_⟩
    · rw [(hf ⟨k,w⟩).1] at hk ⊢
      obtain ⟨l,hl,w1,x,hend⟩ := callEnds_of_not_spent hk
      obtain ⟨d,hend'⟩ := h.after hend
      obtain ⟨r,hr,hx⟩ := hend.callFunc hl
      obtain ⟨r',hr',hx'⟩ := hend'.callFunc (n := k + d) (by omega)
      refine ⟨d,?_⟩
      rw [(hf ⟨k + d,w⟩).2,hr,hr',Nat.add_sub_add_right]
      exact hx.agree hx' _
    · rw [(hf ⟨k,w⟩).2] at hk ⊢
      obtain ⟨l,hl,w1,x,hend⟩ := callEnds_of_not_spent hk
      obtain ⟨j,hj,hend'⟩ := h.before hend
      obtain ⟨r,hr,hx⟩ := hend.callFunc hl
      obtain ⟨r',hr',hx'⟩ := hend'.callFunc (n := k - (l - j)) (by omega)
      refine ⟨l - j,by omega,?_⟩
      have hleft : k - (l - j) - j = k - l := by omega
      rw [(hf ⟨k - (l - j),w⟩).1,hr,hr',hleft]
      exact hx'.agree hx _

/-- Splitting the critical edges does not fail. It counts them, leaves none of them, and puts a
block that only branches on each; the function passes the check as before, and if no critical edge
leads to its entry, calls go as before but for the branches in the new blocks. -/
theorem splitCriticalEdges_correct {m : Module} (hw : Wired m) (hm : m.Mirror)
    (hv : ∀ g ∈ m.funcs, m.verify g = .ok ()) {f : FuncId} (hf : f ∈ m.funcs)
    (hs : ∀ b ∈ (m.func f).layout, (m.succs b).Nodup) :
    let r := m.splitCriticalEdges f
    r.defect = none ∧ r.count = (m.criticalEdges f).length ∧ (m.criticalEdges f).Nodup ∧
    (∀ p s, (p,s) ∈ m.criticalEdges f ↔ s ∈ (m.func f).layout ∧ p ∈ m.preds s ∧ m.phis s ≠ [] ∧
      1 < (m.succs p).length ∧ 1 < (m.preds s).length) ∧
    r.module.criticalEdges f = [] ∧ r.module.splitCriticalEdges f = ⟨r.module,0,none⟩ ∧
      (∀ g ∈ m.funcs, r.module.verify g = .ok ()) ∧
    (∀ b ∈ (r.module.func f).layout, b ∉ (m.func f).layout → r.module.IsBridge b) ∧
    ((∀ e, (m.func f).layout.head? = some e → ∀ p, (p,e) ∉ m.criticalEdges f) → ∀ w name args,
      (∀ k, ¬Spent ((⟨k,w⟩ : Machine).call m name args).2 →
        ∃ d, Agree ((⟨k,w⟩ : Machine).call m name args)
          ((⟨k + d,w⟩ : Machine).call r.module name args)) ∧
      ∀ k, ¬Spent ((⟨k,w⟩ : Machine).call r.module name args).2 →
        ∃ d ≤ k, Agree ((⟨k - d,w⟩ : Machine).call m name args)
          ((⟨k,w⟩ : Machine).call r.module name args)) := by
  cases he : (m.func f).layout.head? with
  | none =>
    have hnil := List.head?_eq_none_iff.mp he
    have hedges : m.criticalEdges f = [] := by rw [criticalEdges,hnil,List.flatMap_nil]
    rw [splitCriticalEdges_of_nil hedges,hedges]
    refine ⟨rfl,rfl,List.nodup_nil,fun p s => ?_,hedges,splitCriticalEdges_of_nil hedges,hv,
      fun b hb hn => absurd hb hn,fun _ w name args =>
      (Slowed.refl m).call rfl (fun _ => ⟨rfl,rfl⟩) w name args⟩
    rw [← mem_criticalEdges,hedges]
  | some e =>
    have hS : Splittable m f e := .of_wired hw hm hv hf he hs
    obtain ⟨n,e',hsplit,hE,hnil⟩ := exists_expanded hS
    rw [hsplit]
    refine ⟨rfl,rfl,nodup_criticalEdges hS,fun p s => mem_criticalEdges,hnil,
      splitCriticalEdges_of_nil hnil,fun g hg => ?_,hE.bridges,fun hentry w name args => ?_⟩
    · exact hE.splittable.verified g (hE.funcs ▸ hg)
    · have hno : ¬∃ p, (p,e) ∈ m.criticalEdges f := fun ⟨p,hp⟩ => hentry e rfl p hp
      exact (hE.slowed hno).2.call hE.funcs hE.signature w name args

/-- Two ways to a block, one of them critical. -/
def shortcut : Module :=
  let b (n : Nat) : BlockId := ⟨0,n⟩
  { name := "shortcut", globals := [], funcs := [0], globalTable := .empty
    funcTable := ⟨#[⟨"main",.i32,[],[b 0,b 1,b 2],⟨#[
      ⟨"entry",[0],[],[b 1,b 2],[2]⟩,⟨"side",[1],[b 0],[b 2],[0,2]⟩,
      ⟨"end",[2,3],[b 0,b 1],[],[0,1]⟩]⟩,1,.empty,[]⟩]⟩
    instrTable := ⟨#[
      ⟨.br,.void,none,none,[.literal 0,.block (b 1),.block (b 2)],some (b 0),[]⟩,
      ⟨.br,.void,none,none,[.block (b 2)],some (b 1),[]⟩,
      ⟨.phi,.i32,some 0,none,[.literal 1,.block (b 0),.literal 2,.block (b 1)],some (b 2),[3]⟩,
      ⟨.ret,.void,none,none,[.instr 2],some (b 2),[]⟩]⟩
    literalTable := ⟨#[⟨.int 0,[0]⟩,⟨.int 7,[2]⟩,⟨.int 8,[2]⟩]⟩ }

theorem splitCriticalEdges_correct_shortcut :
    let w : World := ⟨.empty,.empty,[],"",∅⟩
    let n := (shortcut.splitCriticalEdges 0).module
    shortcut.criticalEdges 0 = [(⟨0,0⟩,⟨0,2⟩)] ∧ (shortcut.splitCriticalEdges 0).count = 1 ∧
      n.criticalEdges 0 = [] ∧ n.IsBridge ⟨0,3⟩ ∧
      ((⟨2,w⟩ : Machine).call shortcut "main" []).2 = .ok (.ofInt 7) ∧
      ∃ d, Agree ((⟨2,w⟩ : Machine).call shortcut "main" [])
        ((⟨2 + d,w⟩ : Machine).call n "main" []) := by
  intro w n
  have hedges : shortcut.criticalEdges 0 = [(⟨0,0⟩,⟨0,2⟩)] := by decide
  have hr : ((⟨2,w⟩ : Machine).call shortcut "main" []).2 = .ok (.ofInt 7) := by decide +kernel
  obtain ⟨-,hcount,-,-,hnil,-,-,hbridge,hcall⟩ :=
    splitCriticalEdges_correct (m := shortcut) ⟨by decide,by decide,by decide,by decide⟩
    (.of_entries (by decide) (by decide) (by decide)) (fun g hg => List.mem_singleton.mp hg ▸ rfl)
      (f := 0) (by decide) (by decide)
  refine ⟨hedges,by rw [hcount,hedges]; rfl,hnil,hbridge _ (by decide +kernel) (by decide),hr,?_⟩
  refine (hcall (fun e he p hp => ?_) w "main" []).1 2 ?_
  · rw [hedges,List.mem_singleton] at hp
    obtain rfl := Option.some.inj he
    cases hp
  · rintro ⟨sites,hspent⟩
    cases hr.symm.trans hspent

/-- A loop at the start, with two edges back to it and a phi. -/
def loopedStart : Module :=
  let b (n : Nat) : BlockId := ⟨0,n⟩
  { name := "looped", globals := [], funcs := [0], globalTable := .empty
    funcTable := ⟨#[⟨"f",.i32,[],[b 0,b 1,b 2],⟨#[
      ⟨"loop",[0,1,2],[b 0,b 1],[b 0,b 1],[0,2,3]⟩,⟨"next",[3],[b 0],[b 0,b 2],[0,2]⟩,
      ⟨"end",[4],[b 1],[],[3]⟩]⟩,2,.empty,[]⟩]⟩
    instrTable := ⟨#[
      ⟨.phi,.i32,some 0,none,[.literal 0,.block (b 0),.literal 1,.block (b 1)],some (b 0),[1,1,4]⟩,
      ⟨.icmp .ne,.i1,some 1,none,[.instr 0,.instr 0],some (b 0),[2,3]⟩,
      ⟨.br,.void,none,none,[.instr 1,.block (b 0),.block (b 1)],some (b 0),[]⟩,
      ⟨.br,.void,none,none,[.instr 1,.block (b 0),.block (b 2)],some (b 1),[]⟩,
      ⟨.ret,.void,none,none,[.instr 0],some (b 2),[]⟩]⟩
    literalTable := ⟨#[⟨.int 5,[0]⟩,⟨.int 6,[0]⟩]⟩ }

/-- A block on the edge to the entry becomes the entry, and the phi starts with a value it had for a
later turn. -/
theorem loopedStart_changed : let n := (loopedStart.splitCriticalEdges 0).module
    Wired loopedStart ∧ loopedStart.Mirror ∧ loopedStart.verify 0 = .ok () ∧ n.verify 0 = .ok () ∧
      ∃ mc, Machine.new loopedStart .empty "" 9 = some mc ∧ Machine.new n .empty "" 9 = some mc ∧
        (mc.call loopedStart "f" []).2 = .ok .zero ∧ (mc.call n "f" []).2 = .ok (.ofInt 5) := by
  intro n
  have hglobals : n.globals = [] := by decide +kernel
  refine ⟨⟨by decide,by decide,by decide,by decide⟩,
    .of_entries (by decide) (by decide) (by decide),rfl,by decide +kernel,
    ⟨9,⟨.empty,.empty,[],"",∅⟩⟩,rfl,?_,by decide +kernel,by decide +kernel⟩
  rw [Machine.new,hglobals]
  rfl

end CMinusF
