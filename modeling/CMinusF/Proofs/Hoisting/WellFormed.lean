import CMinusF.Proofs.Hoisting.Phis
import Mathlib.Data.List.Nodup

/-! Hoisting leaves a well-formed function behind, if each phi of an entry that is jumped to has a
value from outside the loop. -/
namespace CMinusF
open CMinusF.Module List

namespace Hoisting

section
variable {m n : Module} {f : FuncId} {e e' b c d h pre : BlockId} {i j p t : InstrId}
  {bs old : List BlockId} {l : Loop} {w : Purity} {todo : List InstrId}

/-! The phis of the header. -/

theorem Sound.mem_phis (hS : Sound m f e todo old) (hb : b ∈ (m.func f).layout)
    (hp : p ∈ (m.block b).instrs) (hop : (m.instr p).op = .phi) : p ∈ m.phis b := by
  obtain ⟨xs,ys,hs⟩ := append_of_mem hp
  have hord := hS.ordered b hb
  rw [hs,pairwise_append] at hord
  have hall : ∀ x ∈ xs, decide ((m.instr x).op = .phi) = true := fun x hx =>
    decide_eq_true (hord.2.2 x hx p mem_cons_self hop)
  rw [Module.phis,hs,takeWhile_append_of_pos hall]
  simp [hop]

/-- With nothing left to be split, it does not matter what led to the header. -/
theorem Sound.forget {old' : List BlockId} (hS : Sound m f e [] old) : Sound m f e [] old' :=
  { hS with fed := hS.fed }

theorem Sound.splitAll (hS : Sound m f e todo old) (hE : Entrance m e l pre old) (ht : m.Ends pre t)
    (hnd : todo.Nodup) (htodo : ∀ p ∈ todo, p ∈ (m.block l.header).instrs ∧ (m.instr p).op = .phi ∧
      ∃ v c, (v,Operand.block c) ∈ m.incoming p ∧ l.contains c = false) :
    Sound (todo.foldl (splitPhi l pre) m) f e [] old ∧
    Stays w f m (todo.foldl (splitPhi l pre) m) := by
  induction todo generalizing m with
  | nil => exact ⟨hS,.refl w f m⟩
  | cons p todo ih =>
    obtain ⟨hpt,hnd⟩ := nodup_cons.mp hnd
    obtain ⟨⟨hp,hop,hout⟩,htodo⟩ := forall_mem_cons.mp htodo
    obtain ⟨hS',hst⟩ := hS.split hE ht hp hop hpt (fun i hi => (htodo i hi).1) hout
    obtain ⟨_,_,_,_,_,hsp⟩ := hS.exists_splitPhi hE ht mem_cons_self hp hop hout
    obtain ⟨h1,h2⟩ := ih hS' (hE.of_same hsp.flow) (hsp.flow.ends pre t ht).1 hnd fun i hi => by
      obtain ⟨hih,hiop,hiout⟩ := htodo i hi
      have hiq := hS.ne_size (hS.flow.mem_layout hE.reached) hih
      have hip : i ≠ p := by
        rintro rfl
        exact hpt hi
      rw [incoming,hsp.operands_kept hip hiq]
      exact ⟨(hsp.mem_iff hiq).mpr hih,(hsp.old_eq hiq).op.trans hiop,hiout⟩
    exact ⟨h1,hst.trans h2⟩

/-! A new preheader. -/

theorem Fronted.operands_plain (hF : Fronted m n f bs h pre) (hi : i ≠ m.instrTable.size)
    (hop : (m.instr i).op.isTerminator = false) : n.operands i = m.operands i := by
  rw [operands_eq_code,hF.kept i hi fun b _ hb => Bool.noConfusion (hop.symm.trans hb.leaves),
    operands_eq_code]

theorem Fronted.mem_operands (hF : Fronted m n f bs h pre) (hi : i ≠ m.instrTable.size)
    {v : Operand} (hv : v ∈ n.operands i) :
    v ∈ m.operands i ∨ v = .block pre := by
  by_cases hb : ∃ b ∈ bs, m.Ends b i
  · obtain ⟨b,hb,hbi⟩ := hb
    rw [operands_eq_code,hF.moved b hb i hbi] at hv
    obtain ⟨u,hu,rfl⟩ := mem_map.mp hv
    unfold Operand.replace
    split
    · exact .inr rfl
    · exact .inl hu
  · rw [operands_eq_code,hF.kept i hi fun b hb' hbi => hb ⟨b,hb',hbi⟩] at hv
    exact .inl hv

theorem Fronted.instr_mem (hF : Fronted m n f bs h pre) (hj : .instr j ∈ n.operands i) :
    i ≠ m.instrTable.size ∧ .instr j ∈ m.operands i := by
  have hi : i ≠ m.instrTable.size := by
    rintro rfl
    rw [hF.operands_pre] at hj
    cases mem_singleton.mp hj
  exact ⟨hi,(hF.mem_operands hi hj).resolve_right fun heq => by cases heq⟩

/-- Until the phis are split, they have values for what led to the header before. -/
theorem Fronted.sound (hF : Fronted m n f bs h pre) (D : Detour m n e e' h pre)
    (hS : Sound m f e [] old) (hbs : bs.Sublist (m.preds h)) :
    Sound n f e' (n.phis h) (m.preds h) ∧ Stays w f m n := by
  have hhl := hS.flow.mem_layout D.reached
  have hnew := hF.notMem hS.flow
  have hne : ∀ {c}, c ∈ (m.func f).layout → c ≠ pre := by
    rintro c hc rfl
    exact hnew hc
  have hinstrs : ∀ {c}, c ∈ (m.func f).layout → (n.block c).instrs = (m.block c).instrs :=
      fun hc => by
    rw [hF.instrs,if_neg (hne hc)]
  have hpre : (n.block pre).instrs = [m.instrTable.size] := by rw [hF.instrs,if_pos rfl]
  have hbranch : (n.instr m.instrTable.size).op = .br := by rw [op_eq_code,hF.branch]
  have hmem : ∀ {i}, i ∈ n.instrs f ↔ i ∈ m.instrs f ∨ i = m.instrTable.size := by
    intro i
    rw [mem_instrs_iff,mem_instrs_iff]
    constructor
    · rintro ⟨c,hc,hi⟩
      rcases hF.mem_layout_iff.mp hc with rfl | hc
      · exact .inr (mem_singleton.mp (hpre ▸ hi))
      · exact .inl ⟨c,hc,hinstrs hc ▸ hi⟩
    · rintro (⟨c,hc,hi⟩ | rfl)
      · exact ⟨c,hF.mem_layout_iff.mpr (.inr hc),(hinstrs hc).symm ▸ hi⟩
      · exact ⟨pre,hF.mem_layout_iff.mpr (.inl rfl),hpre ▸ mem_singleton_self _⟩
  have hold : ∀ {c i}, c ∈ (m.func f).layout → i ∈ (m.block c).instrs →
    i ≠ m.instrTable.size := hS.ne_size
  -- a phi of the function is an old one, with the operands it had
  have hphi : ∀ {c p}, c ∈ (n.func f).layout → p ∈ (n.block c).instrs → (n.instr p).op = .phi →
      c ∈ (m.func f).layout ∧ p ∈ (m.block c).instrs ∧ (m.instr p).op = .phi ∧
        n.operands p = m.operands p := by
    intro c p hc hp hop
    rcases hF.mem_layout_iff.mp hc with rfl | hc
    · grind
    · rw [hinstrs hc] at hp
      have hpq := hold hc hp
      rw [(hF.instr_old hpq).op] at hop
      exact ⟨hc,hp,hop,hF.operands_plain hpq (by rw [hop]; rfl)⟩
  have hfed : ∀ {c p}, c ∈ (m.func f).layout → p ∈ (m.block c).instrs → (m.instr p).op = .phi →
      Fed m e p (m.preds c) := by
    intro c p hc hp hop
    have := hS.fed c hc p hp hop
    rwa [if_neg not_mem_nil] at this
  have hphis : n.phis h = m.phis h :=
    phis_congr (hinstrs hhl) fun i hi => (hF.instr_old (hold hhl hi)).op
  have havail : ∀ {c xs j}, m.Reaches e c → Available m (fun d => (m.block d).instrs) e c xs j →
      Available n (fun d => (n.block d).instrs) e' c xs j := by
    intro c xs j hc ha
    refine ha.imp_right ?_
    rintro ⟨a,hac,ha,hja⟩
    have har := ha.reaches hc
    refine ⟨a,hac,(D.dominates_iff (D.ne_pre har) (D.ne_pre hc)).mpr ha,?_⟩
    dsimp only
    rwa [hinstrs (hS.flow.mem_layout har)]
  refine ⟨⟨D.entry ▸ hF.controlFlow hS.flow hhl hbs,hF.mirror hS.mirror,fun c hc => ?_,
    fun c hc i hi => ?_,fun c hc => ?_,
    fun i hi v hv => ?_,fun i hi j hj => ?_,fun i hi j hj => ?_,fun i hi hop => ?_,
    fun i hi hop => ?_,fun c hc p hp hop => ?_,
    ⟨?_,?_,?_⟩,?_⟩,⟨fun c hc => ⟨hF.mem_layout_iff.mpr (.inr hc),fun i hi hf => ?_⟩,
    fun i hi => hmem.mpr (.inl hi)⟩⟩
  · rcases hF.mem_layout_iff.mp hc with rfl | hc
    · exact hpre ▸ nodup_singleton _
    · exact hinstrs hc ▸ hS.nodup c hc
  · rcases hF.mem_layout_iff.mp hc with rfl | hc
    · exact mem_singleton.mp (hpre ▸ hi) ▸ hF.ends_pre.parent
    · rw [hinstrs hc] at hi
      exact (hF.instr_old (hold hc hi)).parent.trans (hS.parent c hc i hi)
  · rcases hF.mem_layout_iff.mp hc with rfl | hc
    · exact hpre ▸ pairwise_singleton _ _
    · rw [hinstrs hc]
      refine (hS.ordered c hc).imp_of_mem fun {i j} hi hj hij => ?_
      rw [(hF.instr_old (hold hc hi)).op,(hF.instr_old (hold hc hj)).op]
      exact hij
  · rcases hmem.mp hi with hi | rfl
    · obtain ⟨c,hc,hic⟩ := mem_instrs_iff.mp hi
      rcases hF.mem_operands (hold hc hic) hv with hv | rfl
      · exact hS.owned i hi v hv
      · exact hF.fresh ▸ rfl
    · rw [hF.operands_pre] at hv
      rw [mem_singleton.mp hv]
      exact hS.flow.owned h hhl
  · obtain ⟨hiq,hj⟩ := hF.instr_mem hj
    have hi := (hmem.mp hi).resolve_right hiq
    obtain ⟨c,hc,hcf⟩ := hS.home i hi j hj
    exact ⟨c,(hF.instr_old (ne_size_of_parent hc)).parent.trans hc,hcf⟩
  · obtain ⟨hiq,hj⟩ := hF.instr_mem hj
    have hi := (hmem.mp hi).resolve_right hiq
    obtain ⟨c,hc,_⟩ := hS.home i hi j hj
    rw [(hF.instr_old (ne_size_of_parent hc)).type]
    exact hS.valued i hi j hj
  · obtain ⟨c,hc,hic⟩ := mem_instrs_iff.mp hi
    obtain ⟨hc,hic,hop,_⟩ := hphi hc hic hop
    rw [(hF.instr_old (hold hc hic)).type]
    exact hS.typed i (mem_instrs_iff.mpr ⟨c,hc,hic⟩) hop
  · rcases hmem.mp hi with hi | rfl
    · obtain ⟨c,hc,hic⟩ := mem_instrs_iff.mp hi
      rw [(hF.instr_old (hold hc hic)).op] at hop
      rw [hF.operands_plain (hold hc hic) (by rw [hop]; rfl)]
      exact hS.load i hi hop
    · rw [hbranch] at hop
      cases hop
  · obtain ⟨hc,hp,hop,hoperands⟩ := hphi hc hp hop
    have key : Fed n e' p (m.preds c) := by
      obtain ⟨ps,ho,hnd,hps,hall⟩ := hfed hc hp hop
      refine ⟨ps,hoperands.trans ho,hnd,hps,fun q hq hqr => hall q hq ?_⟩
      exact (D.reaches_iff (hne (hS.flow.inward c hc q hq))).mp hqr
    rw [hphis]
    split
    · rename_i hph
      rwa [hS.block_unique hc hhl hp (instrs_eq_phis_append m h ▸ mem_append_left _ hph)] at key
    · rename_i hph
      have hch : c ≠ h := by
        rintro rfl
        exact hph (hS.mem_phis hc hp hop)
      rwa [hF.preds,if_neg (hne hc),if_neg hch]
  · intro c hc xs k ys hs hkop j hj
    obtain ⟨hkq,hj⟩ := hF.instr_mem hj
    rcases D.reaches_cases hc with rfl | hc
    · grind
    · rw [hinstrs (hS.flow.mem_layout hc)] at hs
      rw [(hF.instr_old hkq).op] at hkop
      exact havail hc (hS.ssa.dominated c hc xs k ys hs hkop j hj)
  · intro c hc p hp hop q hq j hj
    have hcl := (hF.controlFlow hS.flow hhl hbs).mem_layout (D.entry ▸ hc)
    obtain ⟨hcl,hp,hop,hoperands⟩ := hphi hcl hp hop
    rw [incoming,hoperands] at hj
    have hql := hS.flow.inward c hcl q ((hfed hcl hp hop).label hj)
    have hcr := (D.reaches_iff (hne hcl)).mp hc
    have hqr := (D.reaches_iff (hne hql)).mp hq
    rw [hinstrs hql]
    exact havail hqr (hS.ssa.phi_dominated c hcr p hp hop q hqr j hj)
  · intro i hi u hu
    obtain ⟨huq,hu⟩ := hF.instr_mem (((hF.mirror hS.mirror).mem_uses_iff (by simp) u).mp hu)
    have hi := (hmem.mp hi).resolve_right fun hiq => Nat.lt_irrefl _ (hiq ▸ hS.mirror.instr_lt hu)
    exact hmem.mpr (.inl (hS.ssa.linked i hi u ((hS.mirror.mem_uses_iff (by simp) u).mpr hu)))
  · intro q hq hqr p hp hop
    have hC := D.entry ▸ hF.controlFlow hS.flow hhl hbs
    obtain ⟨hel,hp,hop,hoperands⟩ := hphi hC.entry_mem hp hop
    have hee : e' = e ∧ e ≠ h := by
      have := D.entry
      split at this
      · exact absurd this (hne hel)
      · rename_i heh
        exact ⟨this,heh⟩
    obtain ⟨rfl,heh⟩ := hee
    rw [hF.preds,if_neg (hne hel),if_neg heh] at hq
    obtain ⟨v,c,hv,hc⟩ :=
      hS.entry q hq ((D.reaches_iff (hne (hS.flow.inward _ hel q hq))).mp hqr) p hp hop
    refine ⟨v,c,?_,?_⟩
    · rwa [incoming,hoperands]
    · rwa [D.reaches_iff (hne (hS.flow.inward _ hel c ((hfed hel hp hop).label hv)))]
  · have hiq := hold hc hi
    refine ⟨(hinstrs hc).symm ▸ hi,
      (fixed_congr (hF.instr_old hiq).op fun hcall => hF.operands_plain hiq ?_).mpr hf⟩
    rw [hcall]
    rfl

theorem Fronted.entrance (hF : Fronted m n f (entrances m l) l.header pre)
    (D : Detour m n e e' l.header pre) (hC : ControlFlow m f e)
    (hl : ∀ c ∈ m.preds l.header, l.contains c = true ↔ m.InLoop e l.header c) :
    Entrance n e' l pre (m.preds l.header) := by
  have hhl := hC.mem_layout D.reached
  have hnew := hF.notMem hC
  have hne : ∀ {c}, c ∈ (m.func f).layout → c ≠ pre := by
    rintro c hc rfl
    exact hnew hc
  have hbs : ∀ c, c ∈ entrances m l ↔ c ∈ m.preds l.header ∧ l.contains c = false := fun c => by
    rw [entrances,mem_filter,Bool.not_eq_true']
  refine ⟨(D.reaches_iff (hne hhl)).mpr D.reached,D.reaches_pre,?_,fun hep c hc hcr => ?_,
    fun hp => hnew (hC.inward _ hhl pre hp),fun c => ?_,fun c => ?_⟩
  · rw [D.entry]
    split
    · exact Ne.symm (hne hhl)
    · assumption
  · rw [hF.preds,if_pos rfl] at hc
    obtain ⟨hch,hcl⟩ := (hbs c).mp hc
    have hcm := (D.reaches_iff (hne (hC.inward _ hhl c hch))).mp hcr
    have heh : e = l.header := by
      have := D.entry
      split at this
      · assumption
      · exact absurd (this.symm.trans hep) (hne hC.entry_mem)
    -- a block that is reached leads back to the entry, so it is in the loop
    have hlatch : m.Latch e l.header c := ⟨hcm,((hC.mem_preds_iff hhl).mp hch).2,heh ▸ .entry m e c⟩
    rw [(hl c hch).mpr (.latch hlatch)] at hcl
    cases hcl
  · rw [hF.preds,if_neg (hne hhl),if_pos rfl,mem_append,mem_singleton,mem_filter,decide_eq_true_eq,
      hbs,or_comm]
    grind
  · rw [hF.preds,if_pos rfl,hbs]

theorem Fronted.exists_outside (hF : Fronted m n f bs l.header pre)
    (D : Detour m n e e' l.header pre) (hS : Sound m f e [] old) (hheads : m.Heads e l.header)
    (hl : ∀ c ∈ m.preds l.header, l.contains c = true ↔ m.InLoop e l.header c)
    (hp : p ∈ n.phis l.header) : p ∈ (n.block l.header).instrs ∧ (n.instr p).op = .phi ∧
      ∃ v c, (v,Operand.block c) ∈ n.incoming p ∧ l.contains c = false := by
  have hhl := hS.flow.mem_layout D.reached
  have hph : p ∈ (n.block l.header).instrs :=
    instrs_eq_phis_append n l.header ▸ mem_append_left _ hp
  have hop := op_of_mem_phis hp
  refine ⟨hph,hop,?_⟩
  rw [hF.instrs,if_neg (D.ne_pre D.reached)] at hph
  have hpq := hS.ne_size hhl hph
  rw [(hF.instr_old hpq).op] at hop
  rw [incoming,hF.operands_plain hpq (by rw [hop]; rfl)]
  have hfed := hS.fed _ hhl p hph hop
  have hout : ∀ {c}, c ∈ m.preds l.header → ¬m.InLoop e l.header c → l.contains c = false :=
    fun hc hin =>
    eq_false_of_ne_true fun hcl => hin ((hl _ hc).mp hcl)
  by_cases heh : e = l.header
  · obtain ⟨q,hq⟩ := hheads
    have hqp := (hS.flow.mem_preds_iff hhl).mpr ⟨hS.flow.mem_layout hq.reached,hq.edge⟩
    obtain ⟨v,c,hv,hc⟩ := hS.entry q (heh ▸ hqp) hq.reached p (heh ▸ hph) hop
    exact ⟨v,c,hv,hout (hfed.label hv) fun hin => hc (hin.reached D.reached)⟩
  · -- the new block is reached from a block that is not in the loop
    have hee : e' = e := D.entry.trans (if_neg heh)
    obtain ⟨ds,hds⟩ := D.reaches_pre
    cases hds with
    | start => exact absurd (hee ▸ (⟨[e],.start⟩ : m.Reaches e e)) D.fresh
    | @step c _ ds hc hs =>
      have hcp : c ≠ pre := by
        rintro rfl
        exact D.ne_pre D.reached ((D.front c).mp hs).symm
      have hcr := (D.reaches_iff hcp).mp ⟨ds,hc⟩
      obtain ⟨hcin,hcs⟩ := D.succs_pre hcr hs
      have hcpreds := (hS.flow.mem_preds_iff hhl).mpr ⟨hS.flow.mem_layout hcr,hcs⟩
      obtain ⟨ps,ho,_,_,hall⟩ := hfed
      obtain ⟨x,hx,rfl⟩ := mem_map.mp (hall c hcpreds hcr)
      exact ⟨x.1,x.2,(mem_incoming_pairs ho).mpr ⟨x,hx,rfl,rfl⟩,hout hcpreds hcin⟩

end

/-! The run. -/

section
variable {m n : Module} {f : FuncId} {e e' pre : BlockId} {s s' : State} {k : Nat}
  {is : List InstrId} {l l' : Loop} {p : Purity}

theorem Sound.entry_unique {old : List BlockId} (hS : Sound m f e [] old)
    (hC : ControlFlow m f e') : e = e' :=
  Option.some.inj (hS.flow.entry.symm.trans hC.entry)

/-- What can leave a loop still can when the loop has got a preheader. -/
theorem Grown.leaving (hG : Grown m n f pre) (hL : Leaving m p l is) (hpre : pre ∉ l.blocks)
    (hl : ∀ b, b ∈ l'.blocks ↔ b ∈ l.blocks) : Leaving n p l' is := by
  have hbody : ∀ i, i ∈ bodyOf n l' ↔ i ∈ bodyOf m l := by
    intro i
    rw [mem_bodyOf,mem_bodyOf]
    refine exists_congr fun b => ?_
    rw [hl]
    refine and_congr_right fun hb => ?_
    rw [hG.lines b fun heq => hpre (heq ▸ hb)]
  have hcode : ∀ i ∈ is, n.code.instr i = m.code.instr i := fun i hi => hG.plain i <| .inl
    ⟨fun hop => hL.free i hi (.inr (.inr (.inl hop))),
      eq_false_of_ne_true fun hop => hL.free i hi (.inr (.inl hop))⟩
  have hops : ∀ i ∈ is, n.operands i = m.operands i := fun i hi => by
    rw [operands_eq_code,hcode i hi,operands_eq_code]
  refine ⟨fun i hi => (hbody i).mpr (hL.inside i hi),fun i hi => ?_,fun xs i ys hs j hj hjb => ?_⟩
  · refine (fixed_congr ?_ fun _ => hops i hi).not.mpr (hL.free i hi)
    rw [op_eq_code,hcode i hi]
    rfl
  · rw [hops i (hs ▸ by simp)] at hj
    exact hL.ready xs i ys hs j hj ((hbody j).mp hjb)

variable (hS : Sound s.module f e [] [])
include hS

theorem Sound.makePreheader (h : Kept f e s) (hk : k < s.forest.loops.length)
    (heq : Hoisting.makePreheader f s k = (s',some pre)) (h' : Kept f e' s') (w : Purity) :
    Sound s'.module f e' [] [] ∧ Stays w f s.module s'.module ∧
      ∀ is, Leaving s.module w (s.forest.loop k) is →
        Leaving s'.module w (s'.forest.loop k) is := by
  obtain ⟨hG,_,hnew,hblocks⟩ := h.grown hk heq
  have hspans := h.forest.spans k hk
  have hhl := h.flow.mem_layout hspans.heads.reached
  have hl : ∀ c ∈ s.module.preds (s.forest.loop k).header,
      (s.forest.loop k).contains c = true ↔
        s.module.InLoop e (s.forest.loop k).header c := fun c hc =>
    hspans.contains_iff h.flow.toFlowGraph (h.flow.inward _ hhl c hc)
  obtain ⟨n,q,hF,D,heq'⟩ := h.exists_fronted hk
  obtain ⟨rfl,hq⟩ := Prod.mk.inj (heq.symm.trans heq')
  obtain rfl := Option.some.inj hq
  obtain ⟨h1,hst1⟩ := hF.sound D hS filter_sublist
  obtain ⟨h2,hst2⟩ := h1.splitAll (hF.entrance D h.flow hl) hF.ends_pre
    ((takeWhile_sublist _).nodup (h1.nodup _ (hF.mem_layout_iff.mpr (.inr hhl)))) fun p hp =>
      hF.exists_outside D hS hspans.heads hl hp
  refine ⟨h2.entry_unique h'.flow ▸ h2.forget,hst1.trans hst2,
    fun is hL => hG.leaving hL (fun hp => hnew ?_) fun b => ?_⟩
  · exact h.flow.mem_layout (((hspans.blocks pre).mp hp).reached hspans.heads.reached)
  · rw [(hblocks k hk).2]
    exact or_iff_left fun hb => ((h.forest.mem_ancestors_iff h.flow.toFlowGraph hk).mp hb.2).ne rfl

theorem Sound.preheader (h : Kept f e s) (hk : k < s.forest.loops.length)
    (heq : Hoisting.preheader f s k = (s',some pre)) (h' : Kept f e' s') (w : Purity) :
    Sound s'.module f e' [] [] ∧ Stays w f s.module s'.module ∧
      ∀ is, Leaving s.module w (s.forest.loop k) is →
        Leaving s'.module w (s'.forest.loop k) is := by
  unfold Hoisting.preheader at heq
  split at heq
  · obtain ⟨rfl,_⟩ := Prod.mk.inj heq
    exact ⟨hS.entry_unique h'.flow ▸ hS,.refl w f _,fun _ => id⟩
  · exact hS.makePreheader h hk heq h' w

theorem Sound.runOnLoop (h : Kept f e s) (w : Purity) (k : Nat) :
    ∃ e', Kept f e' (runOnLoop w f s k) ∧ Sound (runOnLoop w f s k).module f e' [] [] ∧
      Stays w f s.module (runOnLoop w f s k).module := by
  rcases h.runOnLoop_cases w k with ⟨_,hrun⟩ | ⟨hk,s',pre,e',t,heq,h',hshape,hpre,ht,hplain,hrun⟩
  · rw [hrun]
    exact ⟨e,h,hS,.refl w f _⟩
  · rw [hrun]
    obtain ⟨hS',hst,hleaving⟩ := hS.preheader h hk heq h' w
    have hspans := h.forest.spans k hk
    have hspans' := h'.forest.spans k (hshape.length.symm ▸ hk)
    have hL := leaving_invariants s.module w (s.forest.loop k) fun i hi => by
      obtain ⟨b,hb,hib⟩ := mem_bodyOf.mp hi
      exact hS.load i (hS.mem_instrs (((hspans.blocks b).mp hb).reached hspans.heads.reached) hib)
    obtain ⟨hS'',hst'⟩ :=
      hS'.leaveAll ⟨hspans'.heads.reached,hspans'.blocks,
      h'.guarded k (hshape.length.symm ▸ hk) pre hpre,ht⟩
      (hleaving _ hL) (ordered_invariants _ _ _).nodup
    exact ⟨e',h'.of_same (sameFlow_moves s'.module ht _ hplain) _,hS'',hst.trans hst'⟩

theorem Sound.run (h : Kept f e s) (w : Purity) (ks : List Nat) :
    ∃ e', Kept f e' (ks.foldl (Hoisting.runOnLoop w f) s) ∧
      Sound (ks.foldl (Hoisting.runOnLoop w f) s).module f e' [] [] ∧
      Stays w f s.module (ks.foldl (Hoisting.runOnLoop w f) s).module := by
  induction ks generalizing e s with
  | nil => exact ⟨e,h,hS,.refl w f _⟩
  | cons k ks ih =>
    obtain ⟨e1,h1,hS1,hst1⟩ := hS.runOnLoop h w k
    obtain ⟨e2,h2,hS2,hst2⟩ := ih hS1 h1
    exact ⟨e2,h2,hS2,hst1.trans hst2⟩

end

/-- Hoisting does not fail. It leaves a well-formed function, in which stores, branches, returns,
phis and calls that may do something stand where they stood. -/
theorem runFresh_wellFormed {m : Module} {f : FuncId} (hr : Regular m f) (hw : WellFormed m f)
    (hin : ∀ b ∈ (m.func f).layout, ∀ c ∈ m.preds b, c ∈ (m.func f).layout)
    (hpn : ∀ b ∈ (m.func f).layout, (m.preds b).Nodup)
    (htyped : ∀ i ∈ m.instrs f, (m.instr i).op = .phi → (m.instr i).type.isVoid = false)
    (hload : ∀ i ∈ m.instrs f, (m.instr i).op = .load → ∃ v, m.operands i = [v])
    (hentry : ∀ e, (m.func f).layout.head? = some e → ∀ q ∈ m.preds e, m.Reaches e q →
      ∀ p ∈ (m.block e).instrs,
      (m.instr p).op = .phi → ∃ v c, (v,Operand.block c) ∈ m.incoming p ∧ ¬m.Reaches e c)
        (w : Purity) :
    (runFresh m f w).failure = none ∧ WellFormed (runFresh m f w).module f ∧
    Stays w f m (runFresh m f w).module := by
  cases he : (m.func f).layout.head? with
  | none =>
    rw [runFresh_of_empty he]
    exact ⟨rfl,hw,.refl w f m⟩
  | some e =>
    have hC := ControlFlow.of_verify hw.verified he hr.layout_nodup hr.listed hin hpn
    have hS := Sound.of_wellFormed hr hw hC htyped hload (hentry e he)
    obtain ⟨e',h',hS',hst⟩ := hS.run (.start hC) w (m.findLoops f (m.dominators f)).postorder
    exact ⟨h'.failure,hS'.wellFormed,hst⟩

/-- Two ways lead into a loop, which counts with a step that is the same on every turn. -/
def gatedLoop : Module :=
  let b (n : Nat) : BlockId := ⟨0,n⟩
  { name := "gated", globals := [], funcs := [0], globalTable := .empty
    funcTable := ⟨#[⟨"main",.i32,[],[b 0,b 1,b 2,b 3],⟨#[
      ⟨"entry",[0],[],[b 1,b 2],[2]⟩,⟨"side",[1],[b 0],[b 2],[0,2]⟩,
      ⟨"loop",[2,3,4,5,6],[b 0,b 1,b 2],[b 2,b 3],[0,1,2,6]⟩,
      ⟨"end",[7],[b 2],[],[6]⟩]⟩,4,.empty,[]⟩]⟩
    instrTable := ⟨#[
      ⟨.br,.void,none,none,[.literal 0,.block (b 1),.block (b 2)],some (b 0),[]⟩,
      ⟨.br,.void,none,none,[.block (b 2)],some (b 1),[]⟩,
      ⟨.phi,.i32,some 0,none,[.literal 0,.block (b 0),.literal 1,.block (b 1),.instr 5,
        .block (b 2)],some (b 2),[5]⟩,
      ⟨.int .add,.i32,some 1,none,[.literal 1,.literal 1],some (b 2),[4,4]⟩,
      ⟨.int .mul,.i32,some 2,none,[.instr 3,.instr 3],some (b 2),[5]⟩,
      ⟨.int .add,.i32,some 3,none,[.instr 2,.instr 4],some (b 2),[2]⟩,
      ⟨.br,.void,none,none,[.literal 0,.block (b 2),.block (b 3)],some (b 2),[]⟩,
      ⟨.ret,.void,none,none,[.literal 0],some (b 3),[]⟩]⟩
    literalTable := ⟨#[⟨.int 0,[0,2,6,7]⟩,⟨.int 1,[2,3,3]⟩]⟩ }

theorem gatedLoop_wellFormed : WellFormed gatedLoop 0 :=
  .of_local rfl rfl (by decide) (by decide) (by decide) (by decide) (by decide)

theorem runFresh_wellFormed_gatedLoop :
    Regular gatedLoop 0 ∧ WellFormed gatedLoop 0 ∧ WellFormed (runFresh gatedLoop 0 ⟨[]⟩).module 0 ∧
      ((runFresh gatedLoop 0 ⟨[]⟩).module.block ⟨0,4⟩).instrs = [9,3,4,8] ∧
      (runFresh gatedLoop 0 ⟨[]⟩).module.incoming 9 =
        [(.literal 0,.block ⟨0,0⟩),(.literal 1,.block ⟨0,1⟩)] ∧
      (runFresh gatedLoop 0 ⟨[]⟩).module.incoming 2 =
        [(.instr 5,.block ⟨0,2⟩),(.instr 9,.block ⟨0,4⟩)] := by
  have hr : Regular gatedLoop 0 :=
    ⟨⟨.of_entries (by decide) (by decide) (by decide),by decide,by decide,by decide⟩,by decide⟩
  have hload : ∀ i ∈ gatedLoop.instrs 0, (gatedLoop.instr i).op = .load →
    ∃ v, gatedLoop.operands i = [v] := fun i hi hop =>
    absurd hop ((by decide : ∀ i ∈ gatedLoop.instrs 0, (gatedLoop.instr i).op ≠ .load) i hi)
  have h := runFresh_wellFormed hr gatedLoop_wellFormed (by decide) (by decide) (by decide) hload
      (fun e he q hq => by
    obtain rfl := Option.some.inj he
    cases hq) ⟨[]⟩
  have hrun : runFresh gatedLoop 0 ⟨[]⟩ = _ := runFresh_of_few (by decide +kernel) _
  refine ⟨hr,gatedLoop_wellFormed,h.2.1,?_⟩
  rw [hrun]
  decide +kernel

/-- A loop at the very start, with a phi that has a value for every turn but the first. -/
def entryLoop : Module :=
  let b (n : Nat) : BlockId := ⟨0,n⟩
  { name := "start", globals := [], funcs := [0], globalTable := .empty
    funcTable := ⟨#[⟨"f",.i32,[],[b 0,b 1],⟨#[
      ⟨"loop",[0,1,2,3],[b 0],[b 0,b 1],[0,3]⟩,⟨"end",[4],[b 0],[],[3]⟩]⟩,3,.empty,[]⟩]⟩
    instrTable := ⟨#[
      ⟨.phi,.i32,some 0,none,[.literal 0,.block (b 0)],some (b 0),[2]⟩,
      ⟨.int .add,.i32,some 1,none,[.literal 1,.literal 2],some (b 0),[]⟩,
      ⟨.icmp .eq,.i1,some 2,none,[.instr 0,.literal 3],some (b 0),[3]⟩,
      ⟨.br,.void,none,none,[.instr 2,.block (b 0),.block (b 1)],some (b 0),[]⟩,
      ⟨.ret,.void,none,none,[.literal 4],some (b 1),[]⟩]⟩
    literalTable := ⟨#[⟨.int 0,[0]⟩,⟨.int 1,[1]⟩,⟨.int 2,[1]⟩,⟨.int 0,[2]⟩,⟨.int 0,[4]⟩]⟩ }

theorem entryLoop_wellFormed : WellFormed entryLoop 0 :=
  .of_local rfl rfl (by decide) (by decide) (by decide) (by decide) (by decide)

/-- The phi then lacks a value for the preheader. -/
theorem entryLoop_not_wellFormed :
    Regular entryLoop 0 ∧ WellFormed entryLoop 0 ∧ (runFresh entryLoop 0 ⟨[]⟩).failure = none ∧
      (runFresh entryLoop 0 ⟨[]⟩).module.preds ⟨0,0⟩ = [⟨0,0⟩,⟨0,2⟩] ∧
      (runFresh entryLoop 0 ⟨[]⟩).module.incoming 0 = [(.literal 0,.block ⟨0,0⟩)] ∧
      ¬WellFormed (runFresh entryLoop 0 ⟨[]⟩).module 0 := by
  have hr : Regular entryLoop 0 :=
    ⟨⟨.of_entries (by decide) (by decide) (by decide),by decide,by decide,by decide⟩,by decide⟩
  have hrun : runFresh entryLoop 0 ⟨[]⟩ = _ := runFresh_of_few (by decide +kernel) _
  rw [hrun]
  refine ⟨hr,entryLoop_wellFormed,rfl,by decide +kernel,by decide +kernel,fun hw => ?_⟩
  generalize hn : (run entryLoop 0 _ ⟨[]⟩).module = n at hw
  have hstart : n.Reaches ⟨0,2⟩ ⟨0,2⟩ := ⟨_,.start⟩
  have hcount := hw.complete ⟨0,2⟩ (by rw [← hn]; decide +kernel) ⟨0,0⟩
    (hstart.step (by rw [← hn]; decide +kernel)) 0 (by rw [← hn]; decide +kernel)
    (by rw [← hn]; decide +kernel) ⟨0,2⟩ (by rw [← hn]; decide +kernel) hstart
  exact absurd hcount (by rw [← hn]; decide +kernel)

end Hoisting
end CMinusF
