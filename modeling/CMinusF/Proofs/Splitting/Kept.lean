import CMinusF.Proofs.Graph.EdgeLists
import CMinusF.Proofs.Machine.Reroute
import CMinusF.Proofs.Splitting.Edge

/-! A module with a block on an edge passes the same check as before. -/
namespace CMinusF
open CMinusF.Module CMinusF.Hoisting List

/-- A module that has been checked, with a function `f` whose edge lists are sets. -/
structure Splittable (m : Module) (f : FuncId) (e : BlockId) : Prop extends Sealed m where
  flow : ControlFlow m f e
  succs_nodup : ∀ d ∈ (m.func f).layout, (m.succs d).Nodup

namespace Splittable
variable {m : Module} {f g : FuncId} {e d : BlockId} {i : InstrId}

theorem of_wired (hw : Wired m) (hm : m.Mirror) (hv : ∀ g ∈ m.funcs, m.verify g = .ok ())
    (hf : f ∈ m.funcs) (he : (m.func f).layout.head? = some e)
    (hs : ∀ d ∈ (m.func f).layout, (m.succs d).Nodup) : Splittable m f e where
  flow := hw.controlFlow hv hf he
  mirror := hm
  verified := hv
  coded g hg := by
    refine hw.funcs g (Nat.not_le.mp fun hsize => hg ?_)
    rw [m.func_of_size_le hsize]
    rfl
  closed g hg d hd c hc := by
    cases he : (m.func g).layout.head? with
    | none => rw [head?_eq_none_iff.mp he] at hd; cases hd
    | some e => exact (hw.controlFlow hv hg he).closed d hd c hc
  succs_nodup := hs

theorem listed (h : Splittable m f e) : f ∈ m.funcs :=
  h.coded f fun hnil => by
    have := h.flow.entry
    rw [hnil] at this
    cases this

end Splittable

namespace Bridged
variable {m n : Module} {f g : FuncId} {e p s b c d : BlockId} {i j t : InstrId}

section
variable (h : Bridged m n f e p s b)
include h

theorem notMem : b ∉ (m.func f).layout := fun hb => by
  have := h.flow.sized b hb
  rw [h.fresh] at this
  exact Nat.lt_irrefl _ this

theorem ne (hd : d ∈ (m.func f).layout) : d ≠ b := fun hb => h.notMem (hb ▸ hd)

theorem source_mem : p ∈ (m.func f).layout := h.flow.inward s h.target p h.source

theorem mem_succs : s ∈ m.succs p := ((h.flow.mem_preds_iff h.target).mp h.source).2

theorem mem_layout_iff : d ∈ (n.func g).layout ↔ d ∈ (m.func g).layout ∨ g = f ∧ d = b := by
  rw [h.layout]
  split
  · rename_i hg
    rw [mem_front,hg]
    exact ⟨fun hd => hd.symm.imp_right fun hd => ⟨rfl,hd⟩,fun hd => (hd.imp_right And.right).symm⟩
  · rename_i hg
    exact ⟨.inl,fun hd => hd.resolve_right fun hd => hg hd.1⟩

theorem view (hi : i ≠ m.instrTable.size) : Lasts m n i := by
  by_cases hend : m.Ends p i
  · exact lasts_of_code (h.moved i hend)
  · by_cases hphi : i ∈ m.phis s
    · obtain ⟨ps,hps,-⟩ := pairs_of_mem_phis h.verified h.target hphi
      exact lasts_of_code (h.renamed i hphi ps hps)
    · exact lasts_of_code (h.kept i hi hend hphi)

/-- The operands of an instruction are as before, but for the new block. -/
theorem mem_operands (hi : i ≠ m.instrTable.size) {v : Operand} (hv : v ∈ n.operands i) :
    v ∈ m.operands i ∨ v = .block b ∧ (m.Ends p i ∨ i ∈ m.phis s) := by
  rw [operands_eq_code] at hv
  by_cases hend : m.Ends p i
  · rw [h.moved i hend] at hv
    obtain ⟨v',hv',rfl⟩ := mem_map.mp hv
    unfold Operand.replace
    split
    · exact .inr ⟨rfl,.inl hend⟩
    · exact .inl hv'
  · by_cases hphi : i ∈ m.phis s
    · obtain ⟨ps,hps,-⟩ := pairs_of_mem_phis h.verified h.target hphi
      rw [h.renamed i hphi ps hps] at hv
      obtain ⟨y,hy,hv⟩ := mem_flatMap.mp hv
      obtain ⟨x,hx,rfl⟩ := mem_map.mp hy
      rw [hps]
      have hmem : ∀ w, w = x.1 ∨ w = .block x.2 → w ∈ arms ps := fun w hw =>
        mem_flatMap.mpr ⟨x,hx,by simpa using hw⟩
      rcases mem_cons.mp hv with rfl | hv
      · exact .inl (hmem _ (.inl rfl))
      · obtain rfl := mem_singleton.mp hv
        by_cases hxp : x.2 = p
        · rw [if_pos hxp]
          exact .inr ⟨rfl,.inr hphi⟩
        · rw [if_neg hxp]
          exact .inl (hmem _ (.inr rfl))
    · rw [h.kept i hi hend hphi] at hv
      exact .inl hv

theorem operands_new : n.operands m.instrTable.size = [.block s] := by
  rw [operands_eq_code,h.branch]

theorem instr_mem_operands (hj : .instr j ∈ n.operands i) : .instr j ∈ m.operands i := by
  by_cases hi : i = m.instrTable.size
  · subst hi
    rw [h.operands_new,mem_singleton] at hj
    cases hj
  · exact (h.mem_operands hi hj).resolve_right fun hv => nomatch hv.1

theorem func_new : b.func = f := by rw [h.fresh]

theorem ne_of_verify (hv : m.verify g = .ok ()) (hd : d ∈ (m.func g).layout) : d ≠ b := by
  rintro rfl
  have hg := (blockChecked hv hd).owned
  rw [h.func_new] at hg
  exact h.notMem (hg ▸ hd)

theorem instrs_old (hd : d ≠ b) : (n.block d).instrs = (m.block d).instrs := by
  rw [h.instrs,if_neg hd]

theorem phis_old (hv : m.verify g = .ok ()) (hd : d ∈ (m.func g).layout) : n.phis d = m.phis d :=
  phis_congr (h.instrs_old (h.ne_of_verify hv hd)) fun _ hi =>
    (h.view (ne_size_of_verify hv hd hi)).1

theorem pairs_new (hv : m.verify g = .ok ()) (hd : d ∈ (m.func g).layout)
    (hi : i ∈ (m.block d).instrs) (hop : (m.instr i).op = .phi) : ∃ ps : List (Operand × BlockId),
      n.operands i = arms ps ∧ (ps.map (·.2)).Nodup ∧ ∀ x ∈ ps, x.2 ∈ n.preds d := by
  have hphi : i ∈ m.phis d := by
    rw [instrs_eq_phis_append,mem_append] at hi
    exact hi.resolve_right fun hi => Tidy.not_phi hv hd hi hop
  obtain ⟨ps,hps,hnd,hpreds⟩ := pairs_of_mem_phis hv hd hphi
  have hpred : n.preds d = if d = s then (m.preds s).filter (· ≠ p) ++ [b] else m.preds d := by
    rw [h.preds,if_neg (h.ne_of_verify hv hd)]
  by_cases hds : d = s
  · subst hds
    have hnew : ∀ x ∈ ps, x.2 ≠ b := fun x hx => h.ne (h.flow.inward d h.target x.2 (hpreds x hx))
    refine ⟨relabel p b ps,by rw [operands_eq_code,h.renamed i hphi ps hps],?_,fun y hy => ?_⟩
    · have hmap : (relabel p b ps).map (·.2) = (ps.map (·.2)).map fun c => if c = p then b
          else c := by
        rw [relabel,map_map,map_map]
        rfl
      rw [hmap]
      refine hnd.map_on fun c hc c' hc' heq => ?_
      obtain ⟨x,hx,rfl⟩ := mem_map.mp hc
      obtain ⟨x',hx',rfl⟩ := mem_map.mp hc'
      have h1 := hnew x hx
      have h2 := hnew x' hx'
      grind
    · obtain ⟨x,hx,rfl⟩ := mem_map.mp hy
      rw [hpred,if_pos rfl,mem_append,mem_filter,mem_singleton]
      by_cases hxp : x.2 = p
      · exact .inr (if_pos hxp)
      · rw [if_neg hxp]
        exact .inl ⟨hpreds x hx,decide_eq_true hxp⟩
  · have hparent : ∀ c, (∃ xs ys, (m.block c).instrs = xs ++ i :: ys) →
        c ∈ (m.func f).layout → c = d := by
      rintro c ⟨xs,ys,hs⟩ hc
      obtain ⟨xs',ys',hs'⟩ := append_of_mem (phis_subset m d hphi)
      have h₁ := ((blockChecked h.verified hc).instr xs i ys hs).parent
      exact Option.some.inj (h₁.symm.trans ((blockChecked hv hd).instr xs' i ys' hs').parent)
    have hkept : n.code.instr i = m.code.instr i :=
        h.kept i (ne_size_of_verify hv hd hi) (fun hend => by
        have := hend.leaves
        rw [hop] at this
        cases this)
      fun hphis => hds (hparent s (append_of_mem (phis_subset m s hphis)) h.target).symm
    refine ⟨ps,?_,hnd,fun x hx => ?_⟩
    · rw [operands_eq_code,hkept,← operands_eq_code,hps]
    · rw [hpred,if_neg hds]
      exact hpreds x hx

theorem checked (hm : m.Mirror) (hv : m.verify g = .ok ()) (hd : d ∈ (m.func g).layout)
    {xs ys : List InstrId} (hs : (m.block d).instrs = xs ++ i :: ys) : n.Checked g d xs i ys := by
  have hk := (blockChecked hv hd).instr xs i ys hs
  have hne : ∀ j ∈ (m.block d).instrs, j ≠ m.instrTable.size :=
    fun j hj => ne_size_of_verify hv hd hj
  have hi : i ∈ (m.block d).instrs := by rw [hs]; simp
  obtain ⟨hop,htype,-,hparent⟩ := h.view (hne i hi)
  refine ⟨hparent.trans hk.parent,fun hterm => hk.last (hop ▸ hterm),fun hphi j hj => ?_,
    fun hphi => ?_,fun hvoid => ?_,fun v hvn => ?_⟩
  · rw [(h.view (hne j (by rw [hs]; simp [hj]))).1]
    exact hk.phi (hop ▸ hphi) j hj
  · exact h.pairs_new hv hd hi (hop ▸ hphi)
  · have hu := hk.void (htype ▸ hvoid)
    refine eq_nil_iff_forall_not_mem.mpr fun u hun => ?_
    have hmem := ((h.mirror hm).mem_uses_iff (v := .instr i) nofun u).mp hun
    have := (hm.mem_uses_iff (v := .instr i) nofun u).mpr (h.instr_mem_operands hmem)
    rw [Module.uses,hu] at this
    cases this
  · have hold : ∀ v ∈ m.operands i, n.operandDefect? g d i v = none := fun v hv' => by
      obtain ⟨hown,hval⟩ := operandDefect?_eq_none_iff.mp (hk.operand v hv')
      refine operandDefect?_eq_none_iff.mpr ⟨hown,fun j hj => ?_⟩
      obtain ⟨⟨c,hc,hcf⟩,hvoid⟩ := hval j hj
      obtain ⟨-,htj,-,hpj⟩ := h.view (Fronted.ne_size_of_parent hc)
      exact ⟨⟨c,hpj.trans hc,hcf⟩,by rw [htj,hvoid]⟩
    rcases h.mem_operands (hne i hi) hvn with hvm | ⟨rfl,hwhere⟩
    · exact hold v hvm
    · -- only instructions of the function itself may name the new block
      have hdf : d ∈ (m.func f).layout := by
        rcases hwhere with hend | hphi
        · exact Option.some.inj (hend.parent.symm.trans hk.parent) ▸ h.source_mem
        · obtain ⟨xs',ys',hs'⟩ := append_of_mem (phis_subset m s hphi)
          have := ((blockChecked h.verified h.target).instr xs' i ys' hs').parent
          exact Option.some.inj (this.symm.trans hk.parent) ▸ h.target
      refine operandDefect?_eq_none_iff.mpr ⟨?_,fun j hj => by cases hj⟩
      exact h.func_new.trans ((h.flow.owned d hdf).symm.trans (blockChecked hv hd).owned)

theorem checked_new (hm : m.Mirror) {xs ys : List InstrId}
    (hs : (n.block b).instrs = xs ++ i :: ys) : n.Checked f b xs i ys := by
  have hop := congrArg Instr.op h.branch
  have hparent := congrArg Instr.parent h.branch
  rw [h.instrs,if_pos rfl] at hs
  obtain ⟨rfl,rfl,rfl⟩ : xs = [] ∧ i = m.instrTable.size ∧ ys = [] := by
    cases xs with
    | nil => simp_all
    | cons x xs => simp at hs
  have hphi : (n.instr m.instrTable.size).op ≠ .phi := fun hphi => by cases hop.symm.trans hphi
  refine ⟨hparent,fun _ => rfl,fun hop => (hphi hop).elim,fun hop => (hphi hop).elim,fun _ => ?_,
    fun v hv => ?_⟩
  · refine eq_nil_iff_forall_not_mem.mpr fun u hun => ?_
    have hmem := ((h.mirror hm).mem_uses_iff (v := .instr m.instrTable.size) nofun u).mp hun
    exact Nat.lt_irrefl _ (hm.instr_lt (h.instr_mem_operands hmem))
  · rw [h.operands_new,mem_singleton] at hv
    subst hv
    exact operandDefect?_eq_none_iff.mpr ⟨h.flow.owned s h.target,fun j hj => nomatch hj⟩

theorem blockChecked_apart (hm : m.Mirror) (hg : g ≠ f) (hv : m.verify g = .ok ())
    (hd : d ∈ (m.func g).layout) : n.BlockChecked g d := by
  have hc := blockChecked hv hd
  have hapart : d ∉ (m.func f).layout := fun hdf => hg (hc.owned.symm.trans (h.flow.owned d hdf))
  have hdb := h.ne_of_verify hv hd
  have hdp : d ≠ p := fun heq => hapart (heq ▸ h.source_mem)
  have hi := h.instrs_old hdb
  have hsuccs : n.succs d = m.succs d := by rw [h.succs,if_neg hdb,if_neg hdp]
  have hempty : m.block b = default := by
    rw [h.fresh,Module.block,Table.get_of_size_le _ (Nat.le_refl _)]
  obtain ⟨is,t,his,ht,htargets⟩ := hc.terminator
  have hp := (hc.instr is t [] his).parent
  have hkept : n.code.instr t = m.code.instr t := by
    refine h.kept t (Fronted.ne_size_of_parent hp)
      (fun hend => hdp (Option.some.inj (hp.symm.trans hend.parent))) fun hphi => ?_
    rw [op_of_mem_phis hphi] at ht
    cases ht
  refine ⟨hc.owned,fun xs i ys hs => h.checked hm hv hd (hi ▸ hs),
    ⟨is,t,hi.trans his,by rw [op_of_code hkept,ht],fun c => ?_⟩,fun c hcs => ?_,fun c hcs => ?_⟩
  · rw [targets_congr hkept,htargets,hsuccs]
  · have hdc := hc.succs c (hsuccs ▸ hcs)
    have hcb : c ≠ b := fun heq => by
      rw [heq,Module.preds,hempty] at hdc
      cases hdc
    have hcs : c ≠ s := fun heq => hapart (h.flow.inward s h.target d (heq ▸ hdc))
    rwa [h.preds,if_neg hcb,if_neg hcs]
  · have hds : d ≠ s := fun heq => hapart (heq ▸ h.target)
    rw [h.preds,if_neg hdb,if_neg hds] at hcs
    have hdc := hc.preds c hcs
    have hcb : c ≠ b := fun heq => by
      rw [heq,Module.succs,hempty] at hdc
      cases hdc
    have hcp : c ≠ p := fun heq => hapart (h.flow.closed p h.source_mem d (heq ▸ hdc))
    rwa [h.succs,if_neg hcb,if_neg hcp]

theorem verify (hm : m.Mirror) (hv : m.verify g = .ok ()) : n.verify g = .ok () := by
  by_cases hg : g = f
  · subst hg
    refine h.after.verify fun d hd xs i ys hs => ?_
    rcases h.mem_layout_iff.mp hd with hd | ⟨-,rfl⟩
    · exact h.checked hm hv hd (h.instrs_old (h.ne hd) ▸ hs)
    · exact h.checked_new hm hs
  · refine verify_of_blockChecked fun d hd => h.blockChecked_apart hm hg hv ?_
    rwa [h.layout,if_neg hg] at hd

end

theorem length_filter_ne {bs : List BlockId} (hnd : bs.Nodup) (hc : c ∈ bs) :
    (bs.filter (· ≠ c)).length + 1 = bs.length := by
  have herase : bs.filter (fun x => decide (x ≠ c)) = bs.erase c := by
    rw [hnd.erase_eq_filter]
    grind
  grind

theorem length_succs (h : Bridged m n f e p s b) (hnd : (m.succs p).Nodup) (hd : d ≠ b) :
    (n.succs d).length = (m.succs d).length := by
  rw [h.succs,if_neg hd]
  split
  · rename_i hdp
    subst hdp
    have hnew : b ∉ (m.succs d).filter (· ≠ s) := fun hb =>
      h.notMem (h.flow.closed d h.source_mem b (mem_of_mem_filter hb))
    rw [addTo,if_neg hnew,length_append]
    exact length_filter_ne hnd h.mem_succs
  · rfl

theorem length_preds (h : Bridged m n f e p s b) (hd : d ≠ b) :
    (n.preds d).length = (m.preds d).length := by
  rw [h.preds,if_neg hd]
  split
  · rename_i hds
    subst hds
    rw [length_append]
    exact length_filter_ne (h.flow.preds_nodup d h.target) h.source
  · rfl

theorem splittable (h : Bridged m n f e p s b) (hm : Splittable m f e) :
    Splittable n f (if e = s then b else e) where
  flow := h.after
  mirror := h.mirror hm.mirror
  verified g hg := h.verify hm.mirror (hm.verified g (h.funcs ▸ hg))
  coded g hg := by
    rw [h.funcs]
    by_cases hgf : g = f
    · exact hgf ▸ hm.listed
    · refine hm.coded g ?_
      rwa [h.layout,if_neg hgf] at hg
  closed g hg d hd c hc := by
    by_cases hgf : g = f
    · subst hgf
      exact h.after.closed d hd c hc
    · have hv := hm.verified g (h.funcs ▸ hg)
      rw [h.layout,if_neg hgf] at hd ⊢
      have hdf := (blockChecked hv hd).owned
      have hdp : d ≠ p := fun heq => hgf (hdf.symm.trans (heq ▸ h.flow.owned p h.source_mem))
      rw [h.succs,if_neg (h.ne_of_verify hv hd),if_neg hdp] at hc
      exact hm.closed g (h.funcs ▸ hg) d hd c hc
  succs_nodup d hd := by
    rw [h.succs]
    split
    · exact nodup_singleton s
    · rename_i hdb
      have hd := ((h.mem_layout_iff.mp hd).resolve_right fun hd => hdb hd.2)
      split
      · rename_i hdp
        subst hdp
        exact nodup_addTo ((hm.succs_nodup d hd).filter _) b
      · exact hm.succs_nodup d hd

end Bridged
end CMinusF
