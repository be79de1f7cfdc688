import CMinusF.Transform.Hoisting
import CMinusF.Proofs.Flow.Detour
import CMinusF.Proofs.Flow.LoopForest
import CMinusF.Proofs.Graph.Redirect

/-! A preheader takes over the edges that enter a loop from outside. -/
namespace CMinusF
open CMinusF.Module List
variable {h pre e b : BlockId} {m n : Module} {bs : List BlockId} {f : FuncId}

/-! A new block in the layout. -/

def front (h pre : BlockId) (l : List BlockId) : List BlockId :=
  l.take (l.idxOf h) ++ pre :: l.drop (l.idxOf h)

section
variable {l : List BlockId}

theorem mem_front : b ∈ front h pre l ↔ b = pre ∨ b ∈ l := by
  conv_rhs => rw [← take_append_drop (l.idxOf h) l]
  simp only [front,mem_append,mem_cons]
  tauto

theorem nodup_front (hl : l.Nodup) (hp : pre ∉ l) : (front h pre l).Nodup := by
  rw [front,nodup_middle,nodup_cons,take_append_drop]
  exact ⟨hp,hl⟩

theorem filter_front (p : BlockId → Bool) (hp : p pre = false) :
    (front h pre l).filter p = l.filter p := by
  conv_rhs => rw [← take_append_drop (l.idxOf h) l]
  rw [front,filter_append,filter_append,filter_cons_of_neg (by simp [hp])]

theorem head?_front (he : l.head? = some e) :
    (front h pre l).head? = some (if e = h then pre else e) := by
  cases l with
  | nil => cases he
  | cons b l =>
    obtain rfl := Option.some.inj he
    rw [front,idxOf_cons]
    grind

end

namespace Hoisting

/-! Branches from outside. -/

/-- What is seen of a module after the branches at the ends of `bs` have been sent to `pre` wherever
they went to `h`. -/
structure Diverted (m n : Module) (bs : List BlockId) (h pre : BlockId) :
    Prop extends SameContext m n where
  moved : ∀ b ∈ bs, ∀ i, m.Ends b i → n.code.instr i =
    { m.code.instr i with operands := (m.operands i).map (Operand.replace (.block h) (.block pre)) }
  kept : ∀ i, (∀ b ∈ bs, ¬m.Ends b i) → n.code.instr i = m.code.instr i
  instrs : ∀ d, (n.block d).instrs = (m.block d).instrs
  succs : ∀ d, n.succs d = if d ∈ bs then addTo ((m.succs d).filter (· ≠ h)) pre else m.succs d
  preds : ∀ d, n.preds d = if d = pre then m.preds pre ++ bs else if d = h
    then (m.preds h).filter (· ∉ bs) else m.preds d
  func : n.code.func = m.code.func
  sizes : n.sizes = m.sizes
  mirror : m.Mirror → n.Mirror

theorem Diverted.nil (m : Module) (h pre : BlockId) : Diverted m m [] h pre := by
  refine ⟨⟨rfl⟩,fun _ hb => absurd hb not_mem_nil,fun _ _ => rfl,fun _ => rfl,fun d => ?_,
    fun d => ?_,rfl,rfl,id⟩
  · rw [if_neg not_mem_nil]
  · split
    · rename_i hd
      simp [hd]
    · split
      · rename_i hd
        simp [hd]
      · rfl

section
variable {t : InstrId}

theorem ends_redirected (hr : Redirected m n b h pre t) (c : BlockId) (u : InstrId) :
    n.Ends c u ↔ m.Ends c u := by
  have hi : ∀ i, Lasts m n i :=
    fun i => lasts_of_code ((congrFun hr.instr i).trans (m.code.instr_setOperands ..))
  exact ends_congr (hr.instrs c) (fun i => (hi i).op) fun i => (hi i).parent

end

theorem exists_redirectAll (hne : h ≠ pre) (bs : List BlockId) (hnd : bs.Nodup)
    (hends : ∀ b ∈ bs, ∃ t, m.Ends b t ∧ h ∈ m.targets t) (hmade : ∀ b ∈ bs, m.Made b)
    (hmh : m.Made h) (hmp : m.Made pre)
    (hpre : ∀ b ∈ bs, b ∉ m.preds pre) :
    ∃ n, redirectAll h pre m bs = (n,none) ∧ Diverted m n bs h pre := by
  induction bs generalizing m with
  | nil => exact ⟨m,rfl,.nil m h pre⟩
  | cons b bs ih =>
    obtain ⟨hb,hnd⟩ := nodup_cons.mp hnd
    obtain ⟨⟨t,ht,hht⟩,hends⟩ := forall_mem_cons.mp hends
    obtain ⟨hmb,hmade⟩ := forall_mem_cons.mp hmade
    obtain ⟨hbp,hpre⟩ := forall_mem_cons.mp hpre
    obtain ⟨m',hm',hr⟩ := exists_redirect ht hht hne hmb hmh hmp
    have hsame : ∀ c, c ≠ b → ∀ u, m.Ends c u → m'.code.instr u = m.code.instr u := by
      intro c hcb u hu
      have htu : t ≠ u := by
        rintro rfl
        exact hcb (Option.some.inj (hu.parent.symm.trans ht.parent))
      rw [hr.instr]
      exact if_neg htu
    have hmade' : ∀ {c}, m.Made c → m'.Made c :=
      fun hc => hc.of_blocks (congrArg Sizes.blocks hr.sizes)
    have hends' : ∀ c ∈ bs, ∃ u, m'.Ends c u ∧ h ∈ m'.targets u := by
      intro c hc
      obtain ⟨u,hu,hhu⟩ := hends c hc
      refine ⟨u,(ends_redirected hr c u).mpr hu,?_⟩
      rw [targets_congr (hsame c (fun heq => hb (heq ▸ hc)) u hu)]
      exact hhu
    have hpre' : ∀ c ∈ bs, c ∉ m'.preds pre := by
      intro c hc
      rw [hr.preds,if_pos rfl,mem_addTo,not_or]
      exact ⟨hpre c hc,fun heq => hb (heq ▸ hc)⟩
    obtain ⟨n,hn,hd⟩ := ih hnd hends' (fun c hc => hmade' (hmade c hc)) (hmade' hmh)
      (hmade' hmp) hpre'
    refine ⟨n,by rw [redirectAll,hm']; exact hn,⟨hd.context.trans hr.context⟩,fun c hc i hi => ?_,
      fun i hi => ?_,
      fun d => (hd.instrs d).trans (hr.instrs d),fun d => ?_,fun d => ?_,hd.func.trans hr.func,
      hd.sizes.trans hr.sizes,fun hm => hd.mirror (hr.mirror hm)⟩
    · rcases mem_cons.mp hc with rfl | hc
      · -- the first branch is at the end of no other block
        obtain rfl := ht.unique hi
        rw [hd.kept t fun d hd hdt => ?_,hr.instr]
        · exact if_pos rfl
        · exact hb (Option.some.inj
            (ht.parent.symm.trans ((ends_redirected hr d t).mp hdt).parent) ▸ hd)
      · have hi' := hsame c (fun heq => hb (heq ▸ hc)) i hi
        rw [hd.moved c hc i ((ends_redirected hr c i).mpr hi),operands_eq_code,hi',operands_eq_code]
    · obtain ⟨hib,hi⟩ := forall_mem_cons.mp hi
      rw [hd.kept i fun c hc hci => hi c hc ((ends_redirected hr c i).mp hci),hr.instr]
      refine if_neg ?_
      rintro rfl
      exact hib ht
    · rw [hd.succs,hr.succs]
      by_cases hdb : d = b
      · subst hdb
        rw [if_neg hb,if_pos rfl,if_pos mem_cons_self]
      · rw [if_neg hdb]
        exact if_congr (by simp [hdb]) rfl rfl
    · rw [hd.preds,hr.preds,hr.preds,hr.preds,if_pos rfl,if_neg hne,if_pos rfl]
      by_cases hdp : d = pre
      · rw [if_pos hdp,if_pos hdp,addTo,if_neg hbp,append_assoc,singleton_append]
      · rw [if_neg hdp,if_neg hdp,if_neg hdp]
        by_cases hdh : d = h
        · rw [if_pos hdh,if_pos hdh,filter_filter]
          refine filter_congr fun x _ => ?_
          simp [Bool.and_comm]
        · rw [if_neg hdh,if_neg hdh,if_neg hdh]

/-- What is seen of a module after `pre` has been put in front of `h` and has taken over the edges
from `bs`. -/
structure Fronted (m n : Module) (f : FuncId) (bs : List BlockId) (h pre : BlockId) :
    Prop extends SameContext m n where
  fresh : pre = ⟨f,(m.func f).blocks.size⟩
  layout : ∀ g, (n.func g).layout = if g = f then front h pre (m.func f).layout
    else (m.func g).layout
  signature : ∀ g, (n.func g).name = (m.func g).name ∧ (n.func g).result = (m.func g).result ∧
    (n.func g).params = (m.func g).params
  instrs : ∀ d, (n.block d).instrs = if d = pre then [m.instrTable.size] else (m.block d).instrs
  branch : n.code.instr m.instrTable.size = ⟨.br,.void,none,none,[.block h],some pre,[]⟩
  moved : ∀ b ∈ bs, ∀ i, m.Ends b i → n.code.instr i =
    { m.code.instr i with operands := (m.operands i).map (Operand.replace (.block h) (.block pre)) }
  kept : ∀ i, i ≠ m.instrTable.size → (∀ b ∈ bs, ¬m.Ends b i) → n.code.instr i = m.code.instr i
  succs : ∀ d, n.succs d = if d = pre then [h] else if d ∈ bs
    then addTo ((m.succs d).filter (· ≠ h)) pre else m.succs d
  preds : ∀ d, n.preds d = if d = pre then bs else if d = h
    then (m.preds h).filter (· ∉ bs) ++ [pre] else m.preds d
  size : n.instrTable.size = m.instrTable.size + 1
  blocks : ∀ g, (n.func g).blocks.size = (m.func g).blocks.size + if g = f then 1 else 0
  mirror : m.Mirror → n.Mirror

theorem fronted_of_steps {m₁ m₂ m₃ : Module} (hne : h ≠ pre)
    (hpre : pre = ⟨f,(m.func f).blocks.size⟩) (h₁ : Seated m m₁ f (front h pre (m.func f).layout))
    (h₂ : Diverted m₁ m₂ bs h pre)
    (h₃ : Linked m₂ m₃ pre .br .void none [.block h] (m₂.block pre).instrs []) (h₄ : SameLines m₃ n)
    (hsuccs : ∀ d, n.succs d = if d = pre then addTo (m₃.succs pre) h else m₃.succs d)
    (hpreds : ∀ d, n.preds d = if d = h then addTo (m₃.preds h) pre else m₃.preds d)
        (hsizes : n.sizes = m₃.sizes)
    (hbs : pre ∉ bs) (hph : pre ∉ m.preds h) (hmirror : m.Mirror → n.Mirror) :
    Fronted m n f bs h pre := by
  have hempty : m.block pre = default := by rw [hpre,block,Table.get_of_size_le _ (Nat.le_refl _)]
  have hsize : m₂.instrTable.size = m.instrTable.size :=
    (congrArg Sizes.instrs h₂.sizes).trans (congrArg Sizes.instrs h₁.sizes)
  have hfunc : ∀ g, n.header g = m₁.header g := fun g =>
    (header_of_code h₄.func g).trans ((h₃.header g).trans (header_of_code h₂.func g))
  have hends := h₁.ends_iff
  have hinstr : ∀ i, i ≠ m.instrTable.size → n.code.instr i = m₂.code.instr i := by
    intro i hi
    rw [h₄.instr,h₃.instr,hsize,if_neg hi]
  have he₃ : ∀ d, m₃.succs d = m₂.succs d ∧ m₃.preds d = m₂.preds d := by
    intro d
    have hd := h₃.block d
    split at hd
    · subst d
      exact (lists_of_code hd).2
    · exact (lists_of_code hd).2
  have hs₁ : ∀ d, m₁.succs d = m.succs d := fun d => (h₁.lines d).2.1
  have hp₁ : ∀ d, m₁.preds d = m.preds d := fun d => (h₁.lines d).2.2
  have hsp : m.succs pre = [] := by rw [succs,hempty]; rfl
  have hpp : m.preds pre = [] := by rw [preds,hempty]; rfl
  refine ⟨⟨?_⟩,hpre,fun g => ?_,fun g => ?_,fun d => ?_,?_,fun b hb i hi => ?_,fun i hi hall => ?_,
    fun d => ?_,fun d => ?_,?_,fun g => ?_,hmirror⟩
  · rw [h₄.context,h₃.context,h₂.context,h₁.context]
  · have := congrArg Func.layout (hfunc g)
    exact this.trans (h₁.layout g)
  · have h1 := congrArg Func.name (hfunc g)
    have h2 := congrArg Func.result (hfunc g)
    have h3 := congrArg Func.params (hfunc g)
    obtain ⟨h4,h5,h6⟩ := h₁.signature g
    exact ⟨h1.trans h4,h2.trans h5,h3.trans h6⟩
  · rw [h₄.instrs,h₃.instrs,h₂.instrs,h₂.instrs,(h₁.lines pre).1,(h₁.lines d).1,hempty,hsize]
    rfl
  · rw [h₄.instr,h₃.instr,hsize,if_pos rfl]
    rfl
  · have hi' : i ≠ m.instrTable.size := by
      rintro rfl
      have := hi.parent
      rw [get_instr_size] at this
      cases this
    rw [hinstr i hi',h₂.moved b hb i ((hends b i).mpr hi),operands_eq_code,h₁.instr]
    rfl
  · rw [hinstr i hi,h₂.kept i fun b hb hi => hall b hb ((hends b i).mp hi),h₁.instr]
  · rw [hsuccs,(he₃ _).1,(he₃ _).1,h₂.succs,h₂.succs,if_neg hbs,hs₁,hs₁,hsp]
    rfl
  · rw [hpreds,(he₃ _).2,(he₃ _).2,h₂.preds,h₂.preds,if_neg hne,if_pos rfl,hp₁,hp₁,hp₁,hpp]
    by_cases hd : d = h
    · rw [if_pos hd,if_neg (hd ▸ hne),if_pos hd,addTo,if_neg fun hm => hph (mem_of_mem_filter hm)]
    · rw [if_neg hd,if_neg hd,if_neg hd]
      rfl
  · rw [← hsize]
    exact (congrArg Sizes.instrs hsizes).trans h₃.size
  · have h1 := congrFun (congrArg Sizes.blocks hsizes) g
    have h2 := congrFun (congrArg Sizes.blocks h₂.sizes) g
    have h3 := congrFun (congrArg Sizes.blocks h₁.sizes) g
    exact ((h1.trans (h₃.blocks g)).trans h2).trans h3

theorem exists_fronted (hC : ControlFlow m f e) (hh : h ∈ (m.func f).layout)
    (hbs : bs.Sublist (m.preds h)) (hint : String) :
    ∃ n, redirectAll h ⟨f,(m.func f).blocks.size⟩ (m.addBlockBefore f hint h).1 bs = (n,none) ∧
      Fronted m (n.br ⟨f,(m.func f).blocks.size⟩ h).1 f bs h ⟨f,(m.func f).blocks.size⟩ := by
  have hf : f < m.funcTable.size := by
    refine Nat.not_le.mp fun hf => ?_
    rw [m.func_of_size_le hf] at hh
    cases hh
  have hseat := m.seated hf hint fun l =>
    l.take ((m.func f).layout.idxOf h) ++ ⟨f,(m.func f).blocks.size⟩ :: l.drop
      ((m.func f).layout.idxOf h)
  have hmirror : m.Mirror → (m.addBlockBefore f hint h).1.Mirror := by
    rw [addBlockBefore_fst]
    exact fun hm => hm.seat _ _ _
  rw [← addBlockBefore_fst] at hseat
  generalize hpre : (⟨f,(m.func f).blocks.size⟩ : BlockId) = pre at *
  generalize (m.addBlockBefore f hint h).1 = m1 at *
  have hnew : pre ∉ (m.func f).layout := fun hp => by
    have := hC.sized pre hp
    rw [← hpre] at this
    exact Nat.lt_irrefl _ this
  have hne : h ≠ pre := by
    rintro rfl
    exact hnew hh
  have hblocks : ∀ g, (m1.func g).blocks.size = (m.func g).blocks.size + if g = f then 1 else 0 :=
    congrFun (congrArg Sizes.blocks hseat.sizes)
  have hmade : ∀ {b}, b ∈ (m.func f).layout → m1.Made b := by
    intro b hb
    have := hC.sized b hb
    rw [Made,hC.owned b hb,hblocks]
    omega
  have hmp : m1.Made pre := by
    grind
  have hends := hseat.ends_iff
  have hin : ∀ b ∈ bs, b ∈ (m.func f).layout := fun b hb => hC.inward h hh b (hbs.subset hb)
  obtain ⟨m2,hm2,hd⟩ := exists_redirectAll hne bs (hC.preds_nodup h hh |>.sublist hbs)
      (fun b hb => by
      obtain ⟨t,ht,htargets⟩ := hC.ends b (hin b hb)
      refine ⟨t,(hends b t).mpr ht,?_⟩
      rw [targets_congr (congrFun hseat.instr t),htargets]
      exact (hC.mirrored b (hin b hb) h hh).mp (hbs.subset hb))
    (fun b hb => hmade (hin b hb)) (hmade hh) hmp (fun b _ => by
      have : m1.preds pre = [] :=
        (hseat.lines pre).2.2.trans
        (by rw [← hpre,block,Table.get_of_size_le _ (Nat.le_refl _)]; rfl)
      rw [this]
      exact not_mem_nil)
  have hmade2 : ∀ {b}, m1.Made b → m2.Made b :=
    fun hb => hb.of_blocks (congrArg Sizes.blocks hd.sizes)
  have hknown : ∀ v ∈ [Operand.block h], m2.sizes.Known v := by
    intro v hv
    rw [mem_singleton.mp hv]
    exact hmade2 (hmade hh)
  have hl := m2.linked_emit (hmade2 hmp) .br .void hknown
  have hmirror3 : m2.Mirror → (m2.emit pre .br .void [.block h]).1.Mirror :=
    fun hm => hm.emit _ _ _ _
  refine ⟨m2,hm2,fronted_of_steps hne hpre.symm hseat hd hl (sameLines_addEdge _ pre h)
    (fun d => succs_addEdge _ pre h d)
    (fun d => preds_addEdge _ pre h d) ?_ (fun hp => hnew (hin pre hp))
    (fun hp => hnew (hC.inward h hh pre hp)) fun hm => ?_⟩
  · have hmade3 : ∀ {b}, m2.Made b → (m2.emit pre .br .void [.block h]).1.Made b := fun {b} hb =>
      Nat.lt_of_lt_of_eq hb (hl.blocks b.func).symm
    exact sizes_addEdge _ (hmade3 (hmade2 hmp)) (hmade3 (hmade2 (hmade hh)))
  · exact ((hd.mirror (hmirror hm)).emit _ _ _ _).addEdge _ _

namespace Fronted
variable {c : BlockId} {i t : InstrId}

theorem notMem (hF : Fronted m n f bs h pre) (hC : ControlFlow m f e) :
    pre ∉ (m.func f).layout := by
  intro hp
  have hlt := hC.sized pre hp
  rw [hF.fresh] at hlt
  exact Nat.lt_irrefl _ hlt

theorem mem_layout_iff (hF : Fronted m n f bs h pre) :
    b ∈ (n.func f).layout ↔ b = pre ∨ b ∈ (m.func f).layout := by
  rw [hF.layout,if_pos rfl,mem_front]

theorem instr_old (hF : Fronted m n f bs h pre) (hi : i ≠ m.instrTable.size) : Lasts m n i := by
  by_cases hb : ∃ b ∈ bs, m.Ends b i
  · obtain ⟨b,hb,hbi⟩ := hb
    exact lasts_of_code (hF.moved b hb i hbi)
  · exact lasts_of_code (hF.kept i hi fun b hb' hbi => hb ⟨b,hb',hbi⟩)

theorem ne_size_of_parent (hp : (m.instr i).parent = some b) : i ≠ m.instrTable.size := by
  rintro rfl
  rw [get_instr_size] at hp
  cases hp

variable (hF : Fronted m n f bs h pre)
include hF

theorem ends_old (hb : b ≠ pre) (ht : m.Ends b t) : n.Ends b t := by
  obtain ⟨⟨is,his,hlast⟩,hleaves,hparent⟩ := ht
  obtain ⟨h1,_,_,h2⟩ := hF.instr_old (ne_size_of_parent hparent)
  refine ⟨⟨is,by rw [hF.instrs,if_neg hb,his],fun i hi => ?_⟩,h1 ▸ hleaves,h2.trans hparent⟩
  have hi' : i ≠ m.instrTable.size := by
    rintro rfl
    have := hlast _ hi
    rw [get_instr_size] at this
    cases this
  rw [(hF.instr_old hi').op]
  exact hlast i hi

theorem ends_pre : n.Ends pre m.instrTable.size := by
  have hbr := hF.branch
  have hop : (n.instr m.instrTable.size).op = .br := by rw [op_eq_code,hbr]
  refine ⟨⟨[],by rw [hF.instrs,if_pos rfl]; rfl,by simp⟩,by rw [hop]; rfl,?_⟩
  have := congrArg Instr.parent hbr
  exact this

theorem operands_pre : n.operands m.instrTable.size = [.block h] := by
  rw [operands_eq_code,hF.branch]

theorem targets_old (hb : b ≠ pre) (ht : m.Ends b t)
    (hin : b ∈ bs → h ∈ m.targets t) (htargets : ∀ c, c ∈ m.targets t ↔ c ∈ m.succs b) :
    ∀ c, c ∈ n.targets t ↔ c ∈ n.succs b := by
  intro c
  have hop := (hF.instr_old (ne_size_of_parent ht.parent)).op
  rw [hF.succs,if_neg hb]
  by_cases hbs : b ∈ bs
  · obtain ⟨hbr,hh⟩ := mem_targets.mp (hin hbs)
    have hops : n.operands t = (m.operands t).map (Operand.replace (.block h) (.block pre)) := by
      rw [operands_eq_code,hF.moved b hbs t ht]
    rw [if_pos hbs,mem_addTo,mem_filter,← htargets,mem_targets,mem_targets,hop,hops,
      Operand.block_mem_map_replace hh]
    simp only [hbr,true_and,decide_eq_true_eq]
  · rw [if_neg hbs,← htargets,
      targets_congr (hF.kept t (ne_size_of_parent ht.parent) fun d hd hdt => ?_)]
    exact hbs (Option.some.inj (hdt.parent.symm.trans ht.parent) ▸ hd)

/-- The edges still come from the blocks of the function and agree with its branches. -/
theorem controlFlow (hC : ControlFlow m f e) (hh : h ∈ (m.func f).layout)
    (hbs : bs.Sublist (m.preds h)) : ControlFlow n f (if e = h then pre else e) := by
  have hnew := hF.notMem hC
  have hold : ∀ {b}, b ∈ (m.func f).layout → b ≠ pre := by
    rintro b hb rfl
    exact hnew hb
  have hin : ∀ b ∈ bs, b ∈ (m.func f).layout ∧ h ∈ m.succs b := fun b hb =>
    (hC.mem_preds_iff hh).mp (hbs.subset hb)
  have hpn : ∀ {c}, c ∈ (m.func f).layout → pre ∉ m.preds c :=
    fun hc hp => hnew (hC.inward _ hc pre hp)
  have hsn : ∀ {b}, b ∈ (m.func f).layout → pre ∉ m.succs b :=
    fun hb hp => hnew (hC.closed _ hb pre hp)
  have hmem : ∀ {b}, b ∈ (n.func f).layout ↔ b = pre ∨ b ∈ (m.func f).layout := hF.mem_layout_iff
  refine ⟨⟨?_,fun b hb => ?_,?_,fun b hb => ?_,fun b hb c hc => ?_,fun b hb c hc => ?_⟩,
    fun b hb p hp => ?_,fun b hb => ?_,
    fun b hb => ?_⟩
  · rw [hF.layout,if_pos rfl]
    exact head?_front hC.entry
  · rcases hmem.mp hb with rfl | hb
    · rw [hF.fresh]
    · exact hC.owned b hb
  · rw [hF.layout,if_pos rfl]
    exact nodup_front hC.nodup hnew
  · rw [hF.blocks,if_pos rfl]
    rcases hmem.mp hb with rfl | hb
    · rw [hF.fresh]
      exact Nat.lt_succ_self _
    · exact Nat.lt_succ_of_lt (hC.sized b hb)
  · rw [hF.succs] at hc
    rw [hmem]
    rcases hmem.mp hb with rfl | hb
    · rw [if_pos rfl] at hc
      exact .inr (mem_singleton.mp hc ▸ hh)
    · rw [if_neg (hold hb)] at hc
      split at hc
      · rcases mem_addTo.mp hc with hc | hc
        · exact .inr (hC.closed b hb c (mem_of_mem_filter hc))
        · exact .inl hc
      · exact .inr (hC.closed b hb c hc)
  · rw [hF.preds,hF.succs]
    rcases hmem.mp hb with rfl | hb
    · rw [if_pos rfl,mem_singleton]
      rcases hmem.mp hc with rfl | hc
      · rw [if_pos rfl]
        exact iff_of_false (fun hp => hnew (hin _ hp).1) fun heq => hold hh heq.symm
      · rw [if_neg (hold hc)]
        by_cases hch : c = h
        · rw [if_pos hch]
          simp [hch]
        · rw [if_neg hch]
          exact iff_of_false (hpn hc) hch
    · rw [if_neg (hold hb)]
      rcases hmem.mp hc with rfl | hc
      · rw [if_pos rfl]
        split
        · rename_i hb'
          exact iff_of_true hb' (mem_addTo.mpr (.inr rfl))
        · rename_i hb'
          exact iff_of_false hb' (hsn hb)
      · rw [if_neg (hold hc)]
        have hmir := hC.mirrored b hb c hc
        by_cases hch : c = h
        · subst hch
          rw [if_pos rfl,mem_append,mem_filter,mem_singleton,decide_eq_true_eq,
            or_iff_left (hold hb)]
          split
          · rename_i hb'
            refine iff_of_false (fun hx => hx.2 hb') fun hx => ?_
            rcases mem_addTo.mp hx with hx | hx
            · simp at hx
            · exact hold hc hx
          · rename_i hb'
            rw [and_iff_left hb']
            exact hmir
        · rw [if_neg hch]
          split
          · rw [mem_addTo,mem_filter,or_iff_left (hold hc),decide_eq_true_eq,and_iff_left hch]
            exact hmir
          · exact hmir
  · rw [hF.preds] at hp
    rw [hmem]
    rcases hmem.mp hb with rfl | hb
    · rw [if_pos rfl] at hp
      exact .inr (hin p hp).1
    · rw [if_neg (hold hb)] at hp
      split at hp
      · rcases mem_append.mp hp with hp | hp
        · exact .inr (hC.inward h hh p (mem_of_mem_filter hp))
        · exact .inl (mem_singleton.mp hp)
      · exact .inr (hC.inward b hb p hp)
  · rw [hF.preds]
    have hnd := hC.preds_nodup h hh
    rcases hmem.mp hb with rfl | hb
    · rw [if_pos rfl]
      exact hnd.sublist hbs
    · rw [if_neg (hold hb)]
      split
      · rw [nodup_append]
        refine ⟨hnd.filter _,nodup_singleton _,fun x hx y hy => ?_⟩
        rw [mem_singleton.mp hy]
        rintro rfl
        exact hpn hh (mem_of_mem_filter hx)
      · exact hC.preds_nodup b hb
  · rcases hmem.mp hb with rfl | hb
    · refine ⟨_,hF.ends_pre,fun c => ?_⟩
      have hop : (n.instr m.instrTable.size).op = .br := by rw [op_eq_code,hF.branch]
      rw [mem_targets,hop,hF.operands_pre,hF.succs,if_pos rfl]
      simp
    · obtain ⟨t,ht,htargets⟩ := hC.ends b hb
      exact ⟨t,hF.ends_old (hold hb) ht,
        hF.targets_old (hold hb) ht (fun hb' => (htargets h).mpr (hin b hb').2) htargets⟩

theorem detour (hC : ControlFlow m f e) (hh : m.Heads e h)
    (hbs : ∀ b, b ∈ bs ↔ b ∈ m.preds h ∧ ¬m.InLoop e h b) :
      Detour m n e (if e = h then pre else e) h pre := by
  have hnew := hF.notMem hC
  have hhl := hC.mem_layout hh.reached
  have hold : ∀ {b}, m.Reaches e b → b ≠ pre := by
    rintro b hb rfl
    exact hnew (hC.mem_layout hb)
  refine ⟨hh.reached,fun hp => hnew (hC.mem_layout hp),rfl,fun c => ?_,fun b hb c => ?_,
    fun b hb hout c => ?_⟩
  · rw [hF.succs,if_pos rfl,mem_singleton]
  · rw [hF.succs,if_neg (hold (hb.reached hh.reached)),if_neg fun hb' => ((hbs b).mp hb').2 hb]
  · have hmir := hC.mirrored b (hC.mem_layout hb) h hhl
    rw [hF.succs,if_neg (hold hb)]
    by_cases hs : h ∈ m.succs b
    · rw [if_pos ((hbs b).mpr ⟨hmir.mpr hs,hout⟩),mem_addTo,mem_filter,decide_eq_true_eq]
      simp [hs,and_comm]
    · rw [if_neg fun hb' => hs (hmir.mp ((hbs b).mp hb').1)]
      constructor
      · exact fun hc => .inl ⟨fun heq => hs (heq ▸ hc),hc⟩
      · rintro (hc | hc)
        · exact hc.2
        · exact absurd hc.2 hs

end Fronted
end Hoisting
end CMinusF
