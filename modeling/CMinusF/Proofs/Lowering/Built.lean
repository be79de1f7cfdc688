import CMinusF.Proofs.Graph.EdgeLists
import CMinusF.Proofs.Lowering.Shape

/-! Modules as lowering leaves them, and that each operation of lowering leaves them so. -/
namespace CMinusF.Lowering
open List
open CMinusF.Module (Linked SameLines Sizes)
variable {L : Law} {m : Module} {ns : Notes} {b c a : BlockId} {f : FuncId}

/-- A block to which instructions can still be added. -/
def Open (m : Module) (b : BlockId) : Prop :=
  m.Listed b ∧ ∀ i ∈ m.work b, (m.instr i).op.isTerminator = false

theorem Open.isTerminated (h : Open m b) : m.isTerminated b = false := by
  rw [Module.isTerminated,Module.terminator?,Option.isSome_eq_false_iff,Option.isNone_iff_eq_none,
    Option.filter_eq_none_iff]
  intro i hi
  have hmem := mem_of_getLast? hi
  rw [← m.heads_append_work] at hmem
  rw [Bool.not_eq_true]
  rcases mem_append.mp hmem with hmem | hmem
  · rw [Module.op_of_mem_heads hmem]
    rfl
  · exact h.2 i hmem

/-- An instruction of the module has one of the shapes. -/
abbrev FitsAt (L : Law) (m : Module) (ns : Notes) (b : BlockId) (i : InstrId) : Prop :=
  Fits L m ns b i (m.code.instr i).op (m.code.instr i).type (m.code.instr i).object
    (m.code.instr i).operands

/-- In a block that reports a negative index an instruction is the report or follows it. -/
def Reported (m : Module) (ns : Notes) (b : BlockId) (n : InstrId) (op : Opcode)
    (vs : List Operand) : Prop :=
  (ns b).role = .report → IsReport m op vs ∨ ∃ j < n, (m.code.instr j).parent = some b ∧
    IsReport m (m.code.instr j).op (m.code.instr j).operands

structure Suits (L : Law) (m : Module) (ns : Notes) (b : BlockId) (n : InstrId) (op : Opcode)
    (t : Ty) (object : Option Ty) (vs : List Operand) : Prop where
  fits : Fits L m ns b n op t object vs
  report : Reported m ns b n op vs
  entered : Entered m b n

theorem Grows.suits {m' : Module} {ns' : Notes} {n : InstrId} {op : Opcode} {t : Ty}
    {object : Option Ty} {vs : List Operand} (h : Grows m ns m' ns') (ht : Tree m ns)
    (hb : m.Listed b) (hf : b.func < m.funcTable.size) (hn : n ≤ m.instrTable.size)
    (hx : Suits L m ns b n op t object vs) : Suits L m' ns' b n op t object vs where
  fits := h.fits ht hb hf hn hx.fits
  entered := h.entered ⟨hn,Nat.le_refl n⟩ hx.entered
  report hrole := by
    rw [h.notes b hb] at hrole
    rcases hx.report hrole with hr | ⟨j,hj,hp,hr⟩
    · exact .inl (h.isReport hr)
    · have hold := h.instr j (hj.trans_le hn)
      exact .inr ⟨j,hj,by rw [hold]; exact hp,by rw [hold]; exact h.isReport hr⟩

/-- The types of a function that a program can define. -/
structure IsSignature (result : Ty) (params : List Ty) : Prop where
  result : result = .void ∨ ∃ s, result = scalarType s
  params : ∀ t ∈ params, (∃ s, t = scalarType s) ∨ ∃ s, t = .pointer (scalarType s)

structure Declares (m : Module) : Prop where
  funcs : m.funcs = List.range m.funcTable.size
  globals : m.globals = List.range m.globalTable.size
  contents : ∀ g < m.globalTable.size, (∃ s, m.code.contents g = scalarType s) ∨
    ∃ k s, m.code.contents g = .array k (scalarType s)
  signature : ∀ f < m.funcTable.size, IsSignature (m.func f).result (m.func f).params
  builtin : ∀ f < m.funcTable.size, (m.func f).layout = [] →
    ∃ x : Builtin, (m.func f).name = x.name ∧ (m.func f).result = x.result ∧
      (m.func f).params = x.params

theorem Declares.of_grows {m' : Module} {ns' : Notes} (h : Declares m) (hg : Grows m ns m' ns')
    (hfuncs : m'.funcs = m.funcs) (hglobals : m'.globals = m.globals)
    (hf : m'.funcTable.size = m.funcTable.size) (hgl : m'.globalTable.size = m.globalTable.size) :
    Declares m' where
  funcs := by rw [hfuncs,h.funcs,hf]
  globals := by rw [hglobals,h.globals,hgl]
  contents g hlt := by
    rw [hgl] at hlt
    rw [hg.contents hlt]
    exact h.contents g hlt
  signature f hlt := by
    rw [hf] at hlt
    rw [hg.result f hlt,hg.params f hlt]
    exact h.signature f hlt
  builtin f hlt hl := by
    rw [hf] at hlt
    rw [hg.name f hlt,hg.result f hlt,hg.params f hlt]
    exact h.builtin f hlt ((hg.declared f hlt).mp hl)

/-- The instructions and blocks of a module, edges left aside. -/
structure Laid (L : Law) (m : Module) (ns : Notes) : Prop extends Declares m where
  tree : Tree m ns
  layout : ∀ f, (m.func f).layout = (List.range (m.func f).blocks.size).map (BlockId.mk f)
  linked : ∀ i < m.instrTable.size, ∃ b, m.Listed b ∧ (m.code.instr i).parent = some b ∧
    i ∈ (m.block b).instrs
  member : ∀ b, ∀ i ∈ (m.block b).instrs, i < m.instrTable.size ∧ (m.code.instr i).parent = some b
  heads : ∀ b, (m.heads b).Pairwise (· < ·)
  work : ∀ b, (m.work b).Pairwise (· < ·)
  work_op : ∀ b, ∀ i ∈ m.work b, (m.instr i).op ≠ .alloca
  last : ∀ b, ∀ i ∈ (m.work b).dropLast, (m.instr i).op.isTerminator = false
  suits : ∀ i < m.instrTable.size, ∀ b, (m.code.instr i).parent = some b →
    Suits L m ns b i (m.code.instr i).op (m.code.instr i).type (m.code.instr i).object
      (m.code.instr i).operands
  mirror : m.Mirror

structure Built (L : Law) (m : Module) (ns : Notes) : Prop extends Laid L m ns where
  charted : m.Charted

namespace Laid
variable {n : Module} {i : InstrId}

theorem listed_iff (h : Laid L m ns) : m.Listed b ↔ m.Made b := by
  obtain ⟨f,k⟩ := b
  rw [Module.Listed,h.layout]
  simp

theorem fits (h : Laid L m ns) (i : InstrId) (hi : i < m.instrTable.size) (b : BlockId)
    (hp : (m.code.instr i).parent = some b) : FitsAt L m ns b i := (h.suits i hi b hp).fits

theorem report (h : Laid L m ns) (i : InstrId) (hi : i < m.instrTable.size) (b : BlockId)
    (hp : (m.code.instr i).parent = some b) :
    Reported m ns b i (m.code.instr i).op (m.code.instr i).operands :=
  (h.suits i hi b hp).report

theorem func_lt (h : Laid L m ns) (hb : m.Listed b) : b.func < m.funcTable.size :=
  (h.listed_iff.mp hb).func_lt

theorem listed_entry (h : Laid L m ns) (hl : (m.func f).layout ≠ []) : m.Listed ⟨f,0⟩ := by
  rw [h.listed_iff]
  show 0 < (m.func f).blocks.size
  rw [h.layout] at hl
  exact Nat.pos_of_ne_zero fun h0 => hl (by rw [h0]; rfl)

theorem listed_of_parent (h : Laid L m ns) (hi : i < m.instrTable.size)
    (hp : (m.code.instr i).parent = some b) :
    m.Listed b ∧ i ∈ (m.block b).instrs := by
  obtain ⟨c,hc,hp',hm⟩ := h.linked i hi
  cases hp.symm.trans hp'
  exact ⟨hc,hm⟩

theorem mem_work (h : i ∈ m.work b) : i ∈ (m.block b).instrs := by
  rw [← m.heads_append_work]
  exact mem_append_right _ h

theorem mem_heads (h : i ∈ m.heads b) : i ∈ (m.block b).instrs := by
  rw [← m.heads_append_work]
  exact mem_append_left _ h

theorem above_entry (h : Laid L m ns) (hb : m.Listed b) : Above ns ⟨b.func,0⟩ b := by
  obtain ⟨f,k⟩ := b
  induction k using Nat.strongRecOn with
  | ind k ih =>
    cases hu : (ns ⟨f,k⟩).up with
    | none =>
      have hk : k = 0 := (h.tree.root _ hb).mp hu
      rw [hk]
      exact .refl
    | some c =>
      obtain ⟨hc,hf,hlt⟩ := h.tree.up _ c hb hu
      obtain ⟨g,l⟩ := c
      cases hf
      exact .step hu (ih l hlt hc)

theorem listed_of_above (h : Laid L m ns) (ha : Above ns a b) (hb : m.Listed b) : m.Listed a := by
  induction ha with
  | refl => exact hb
  | step hu _ ih => exact ih (h.tree.up _ _ hb hu).1

theorem func_of_above (h : Laid L m ns) (ha : Above ns a b) (hb : m.Listed b) :
    a.func = b.func ∧ a.number ≤ b.number := by
  induction ha with
  | refl => exact ⟨rfl,Nat.le_refl _⟩
  | step hu _ ih =>
    obtain ⟨hc,hf,hlt⟩ := h.tree.up _ _ hb hu
    grind

end Laid

/-! Emitting an instruction. -/

section
variable {n : Module} {op : Opcode} {t : Ty} {object : Option Ty}
  {vs : List Operand} {before after : List InstrId}

theorem Laid.parts_other (hm : Laid L m ns) (h : Linked m n b op t object vs before after)
    (hc : c ≠ b) :
    n.heads c = m.heads c ∧ n.work c = m.work c :=
  Module.parts_congr (by rw [h.instrs,if_neg hc]) fun i hi => h.op_old (hm.member c i hi).1

theorem Laid.parts_emit (hm : Laid L m ns) (h : Linked m n b op t object vs (m.block b).instrs [])
    (hop : op ≠ .alloca) :
    n.heads b = m.heads b ∧ n.work b = m.work b ++ [m.instrTable.size] := by
  apply Module.parts_of_append
  · rw [h.instrs,if_pos rfl,← append_assoc,m.heads_append_work]
  · intro i hi
    rw [h.op_old (hm.member b i (Laid.mem_heads hi)).1]
    exact Module.op_of_mem_heads hi
  · intro i hi
    rcases mem_append.mp hi with hi | hi
    · rw [h.op_old (hm.member b i (Laid.mem_work hi)).1]
      exact hm.work_op b i hi
    · cases mem_singleton.mp hi
      rw [h.op_new]
      exact hop

theorem Laid.parts_alloca (hm : Laid L m ns)
    (h : Linked m n b .alloca t object vs (m.heads b) (m.work b)) :
    n.heads b = m.heads b ++ [m.instrTable.size] ∧ n.work b = m.work b := by
  apply Module.parts_of_append
  · rw [h.instrs,if_pos rfl,append_assoc,singleton_append]
  · intro i hi
    rcases mem_append.mp hi with hi | hi
    · rw [h.op_old (hm.member b i (Laid.mem_heads hi)).1]
      exact Module.op_of_mem_heads hi
    · cases mem_singleton.mp hi
      exact h.op_new
  · intro i hi
    rw [h.op_old (hm.member b i (Laid.mem_work hi)).1]
    exact hm.work_op b i hi

theorem Grows.of_linked (h : Linked m n b op t object vs before after)
    (hw : ∀ c, m.work c <+: n.work c) : Grows m ns n ns where
  fuller := .of_sizes h.sizes (Nat.le_succ _)
  instr _ hi := h.instr_old hi
  literal c _ := congrFun h.literal c
  global g _ := congrFun h.global g
  name f _ := by have := congrArg Func.name (h.header f); exact this
  result f _ := by have := congrArg Func.result (h.header f); exact this
  params f _ := by have := congrArg Func.params (h.header f); exact this
  declared f _ := by rw [h.layout]
  listed _ hc := h.listed_iff.mpr hc
  notes _ _ := rfl
  work := hw

/-- What the new instruction and its place must satisfy for the module to stay as it should be. -/
theorem Laid.of_linked (hm : Laid L m ns) (h : Linked m n b op t object vs before after)
    (hb : m.Listed b) (hsub : (m.block b).instrs ⊆ before ++ after)
    (hsub' : before ++ after ⊆ (m.block b).instrs) (hw : ∀ c, m.work c <+: n.work c)
    (hheads : (n.heads b).Pairwise (· < ·)) (hwork : (n.work b).Pairwise (· < ·))
    (hop : ∀ i ∈ n.work b, (n.instr i).op ≠ .alloca)
    (hlast : ∀ i ∈ (n.work b).dropLast, (n.instr i).op.isTerminator = false)
    (hf : Suits L m ns b m.instrTable.size op t object vs) (hmirror : n.Mirror) : Laid L n ns := by
  have hg : Grows m ns n ns := .of_linked h hw
  have hother : ∀ c, c ≠ b → n.heads c = m.heads c ∧ n.work c = m.work c :=
    fun c hc => hm.parts_other h hc
  have hcases : ∀ {i}, i < n.instrTable.size → i < m.instrTable.size ∨ i = m.instrTable.size := by
    intro i hi
    rw [h.size] at hi
    exact Nat.lt_or_eq_of_le (Nat.le_of_lt_succ hi)
  have hnew : n.code.instr m.instrTable.size = m.linkedInstr b op t object vs := h.instr_new
  constructor
  case toDeclares =>
    exact hm.toDeclares.of_grows hg h.funcs h.globals (congrArg Sizes.funcs h.sizes)
      (congrArg Sizes.globals h.sizes)
  case tree =>
    refine ⟨fun c d hc hu => ?_,fun c hc => hm.tree.root c (h.listed_iff.mp hc),
      fun c hc => hm.tree.plain c (h.listed_iff.mp hc)⟩
    obtain ⟨hd,hf⟩ := hm.tree.up c d (h.listed_iff.mp hc) hu
    exact ⟨h.listed_iff.mpr hd,hf⟩
  case layout =>
    intro f
    rw [h.layout,h.blocks,hm.layout]
  case linked =>
    intro i hi
    rcases hcases hi with hi | rfl
    · obtain ⟨c,hc,hp,hmem⟩ := hm.linked i hi
      refine ⟨c,h.listed_iff.mpr hc,by rw [h.instr_old hi]; exact hp,?_⟩
      rw [h.instrs]
      grind
    · refine ⟨b,h.listed_iff.mpr hb,by rw [hnew]; rfl,?_⟩
      rw [h.instrs,if_pos rfl]
      grind
  case member =>
    intro c i hi
    rw [h.instrs] at hi
    split at hi
    · rename_i hcb
      subst hcb
      by_cases he : i = m.instrTable.size
      · subst he
        exact ⟨by rw [h.size]; exact Nat.lt_succ_self _,by rw [hnew]; rfl⟩
      · obtain ⟨hlt,hp⟩ := hm.member c i (hsub' (by grind))
        exact ⟨by rw [h.size]; exact Nat.lt_succ_of_lt hlt,by rw [h.instr_old hlt]; exact hp⟩
    · obtain ⟨hlt,hp⟩ := hm.member c i hi
      exact ⟨by rw [h.size]; exact Nat.lt_succ_of_lt hlt,by rw [h.instr_old hlt]; exact hp⟩
  case heads =>
    intro c
    by_cases hc : c = b
    · rw [hc]
      exact hheads
    · rw [(hother c hc).1]
      exact hm.heads c
  case work =>
    intro c
    by_cases hc : c = b
    · rw [hc]
      exact hwork
    · rw [(hother c hc).2]
      exact hm.work c
  case work_op =>
    intro c i hi
    by_cases hc : c = b
    · exact hop i (hc ▸ hi)
    · rw [(hother c hc).2] at hi
      rw [h.op_old (hm.member c i (Laid.mem_work hi)).1]
      exact hm.work_op c i hi
  case last =>
    intro c i hi
    by_cases hc : c = b
    · exact hlast i (hc ▸ hi)
    · rw [(hother c hc).2] at hi
      rw [h.op_old (hm.member c i (Laid.mem_work (dropLast_subset _ hi))).1]
      exact hm.last c i hi
  case suits =>
    intro i hi c hp
    rcases hcases hi with hi | rfl
    · rw [h.instr_old hi] at *
      have hc := (hm.listed_of_parent hi hp).1
      exact hg.suits hm.tree hc (hm.func_lt hc) (Nat.le_of_lt hi) (hm.suits i hi c hp)
    · rw [hnew] at hp ⊢
      cases hp
      exact hg.suits hm.tree hb (hm.func_lt hb) (Nat.le_refl _) hf
  case mirror => exact hmirror

end

/-! The operations. -/
section
variable {d : BlockId} {n : InstrId} {op : Opcode} {t : Ty} {object : Option Ty}
  {v : Operand} {vs : List Operand}

theorem Has.known (h : Has L m ns b n v t) (hn : n ≤ m.instrTable.size) : m.sizes.Known v := by
  cases h with
  | int hc => exact hc
  | float hc => exact hc
  | instr hj => exact hj.trans_le hn

theorem Place.known (h : Place m n f v t) (hn : n ≤ m.instrTable.size) : m.sizes.Known v := by
  cases h with
  | global hg => exact hg
  | slot hj => exact hj.trans_le hn

theorem IsZero.known (h : IsZero m v) : m.sizes.Known v := by
  obtain ⟨c,rfl,hc,-⟩ := h
  exact hc

theorem Passes.known (h : Passes L m ns b n v t) (hn : n ≤ m.instrTable.size) :
    m.sizes.Known v := by
  cases h with
  | value hv => exact hv.known hn
  | array hv _ => exact hv.known hn

theorem exists_of_forall₂ {α β : Type} {R : α → β → Prop} {xs : List α} {ys : List β}
    (h : List.Forall₂ R xs ys) {x : α} (hx : x ∈ xs) :
    ∃ y, R x y := by
  induction h with
  | nil => cases hx
  | cons hxy _ ih => grind

theorem Fits.known (hm : Laid L m ns) (hb : m.Listed b) (hn : n ≤ m.instrTable.size)
    (h : Fits L m ns b n op t object vs) :
    ∀ v ∈ vs, m.sizes.Known v := by
  have one {v w : Operand} (h : m.sizes.Known v) (hw : w ∈ [v]) : m.sizes.Known w := by
    rwa [mem_singleton.mp hw]
  have cons {v w : Operand} {vs : List Operand} (h : m.sizes.Known v)
    (h' : ∀ w ∈ vs, m.sizes.Known w) (hw : w ∈ v :: vs) :
      m.sizes.Known w := by grind
  have edge {c : BlockId} (h : Edge m ns b c) : m.sizes.Known (.block c) :=
    hm.listed_iff.mp h.listed
  cases h with
  | int hx hy => exact fun _ => cons (hx.known hn) fun _ => one (hy.known hn)
  | float hx hy => exact fun _ => cons (hx.known hn) fun _ => one (hy.known hn)
  | icmp hx hy => exact fun _ => cons (hx.known hn) fun _ => one (hy.known hn)
  | fcmp hx hy => exact fun _ => cons (hx.known hn) fun _ => one (hy.known hn)
  | zext hx => exact fun _ => one (hx.known hn)
  | fptosi hx => exact fun _ => one (hx.known hn)
  | sitofp hx => exact fun _ => one (hx.known hn)
  | alloca => exact fun _ h => absurd h not_mem_nil
  | loadVariable hp => exact fun _ => one (hp.known hn)
  | loadReference hp _ => exact fun _ => one (hp.known hn)
  | loadElement hp _ => exact fun _ => one (hp.known hn)
  | storeVariable hv hp => exact fun _ => cons (hv.known hn) fun _ => one (hp.known hn)
  | storeParam _ _ hp => exact fun _ => cons (hm.func_lt hb) fun _ => one (hp.known hn)
  | storeElement hv hp _ => exact fun _ => cons (hv.known hn) fun _ => one (hp.known hn)
  | gepElement hp hz hv =>
    exact fun _ => cons (hp.known hn) fun _ => cons hz.known fun _ => one (hv.known hn)
  | gepFirst hp hz hz' =>
    exact fun _ => cons (hp.known hn) fun _ => cons hz.known fun _ => one hz'.known
  | gepOffset hp _ hv => exact fun _ => cons (hp.known hn) fun _ => one (hv.known hn)
  | call hg hvs =>
    refine fun _ => cons hg fun v hv => ?_
    obtain ⟨t,ht⟩ := exists_of_forall₂ hvs hv
    exact ht.known hn
  | retNone => exact fun _ h => absurd h not_mem_nil
  | ret _ hv => exact fun _ => one (hv.known hn)
  | retVoid _ hj => exact fun _ => one (hj.trans_le hn)
  | br he => exact fun _ => one (edge he)
  | condBr hv hc hd =>
    exact fun _ => cons (hv.known hn) fun _ => cons (edge hc) fun _ => one (edge hd)

/-- An instruction that is no branch and no alloca, at the end of an open block. -/
theorem Laid.emit (hm : Laid L m ns) (hb : Open m b) (hop : op ≠ .alloca)
    (hf : Suits L m ns b m.instrTable.size op t none vs) :
    Laid L (m.emit b op t vs).1 ns ∧ Grows m ns (m.emit b op t vs).1 ns ∧
      Linked m (m.emit b op t vs).1 b op t none vs (m.block b).instrs [] := by
  have h := m.linked_emit (hm.listed_iff.mp hb.1) op t (hf.fits.known hm hb.1 (Nat.le_refl _))
  obtain ⟨hheads,hwork⟩ := hm.parts_emit h hop
  have hw : ∀ c, m.work c <+: (m.emit b op t vs).1.work c := by
    intro c
    by_cases hc : c = b
    · rw [hc,hwork]
      exact prefix_append _ _
    · simp only [(hm.parts_other h hc).2,prefix_rfl]
  refine ⟨?_,.of_linked h hw,h⟩
  apply hm.of_linked h hb.1 (by simp) (by simp) hw
  · rw [hheads]
    exact hm.heads b
  · rw [hwork,pairwise_append]
    refine ⟨hm.work b,pairwise_singleton _ _,fun i hi j hj => ?_⟩
    cases mem_singleton.mp hj
    exact (hm.member b i (Laid.mem_work hi)).1
  · intro i hi
    rw [hwork] at hi
    rcases mem_append.mp hi with hi | hi
    · rw [h.op_old (hm.member b i (Laid.mem_work hi)).1]
      exact hm.work_op b i hi
    · cases mem_singleton.mp hi
      rw [h.op_new]
      exact hop
  · intro i hi
    rw [hwork,dropLast_concat] at hi
    rw [h.op_old (hm.member b i (Laid.mem_work hi)).1]
    exact hb.2 i hi
  · exact hf
  · exact hm.mirror.emit b op t vs

theorem Laid.alloca {n : Module} (hm : Laid L m ns) (hb : m.Listed b) (h0 : b.number = 0)
    (ht : Storable t) (h : Linked m n b .alloca (.pointer t) (some t) [] (m.heads b) (m.work b))
    (hmirror : n.Mirror) :
    Laid L n ns ∧ Grows m ns n ns := by
  obtain ⟨hheads,hwork⟩ := hm.parts_alloca h
  have hw : ∀ c, m.work c <+: n.work c := by
    intro c
    by_cases hc : c = b
    · simp only [hc,hwork,prefix_rfl]
    · simp only [(hm.parts_other h hc).2,prefix_rfl]
  have hsub : m.heads b ++ m.work b = (m.block b).instrs := m.heads_append_work b
  refine ⟨?_,.of_linked h hw⟩
  apply hm.of_linked h hb (by rw [hsub]; exact List.Subset.refl _)
    (by rw [hsub]; exact List.Subset.refl _) hw
  · rw [hheads,pairwise_append]
    refine ⟨hm.heads b,pairwise_singleton _ _,fun i hi j hj => ?_⟩
    cases mem_singleton.mp hj
    exact (hm.member b i (Laid.mem_heads hi)).1
  · rw [hwork]
    exact hm.work b
  · intro i hi
    rw [hwork] at hi
    rw [h.op_old (hm.member b i (Laid.mem_work hi)).1]
    exact hm.work_op b i hi
  · intro i hi
    rw [hwork] at hi
    rw [h.op_old (hm.member b i (Laid.mem_work (dropLast_subset _ hi))).1]
    exact hm.last b i hi
  · refine ⟨.alloca h0 ht,fun hr => ?_,.inl h0⟩
    rw [hm.tree.plain b hb h0] at hr
    cases hr
  · exact hmirror

theorem Laid.of_grows {n : Module} {ns' : Notes} (hm : Laid L m ns) (hg : Grows m ns n ns')
    (hsize : n.instrTable.size = m.instrTable.size)
    (hins : ∀ c, (n.block c).instrs = (m.block c).instrs) (htree : Tree n ns')
    (hlayout : ∀ f, (n.func f).layout = (List.range (n.func f).blocks.size).map (BlockId.mk f))
    (hmirror : n.Mirror) (hd : Declares n) : Laid L n ns' := by
  have hop : ∀ {c i}, i ∈ (m.block c).instrs → (n.instr i).op = (m.instr i).op := by
    intro c i hi
    rw [n.op_eq_code,m.op_eq_code,hg.instr i (hm.member c i hi).1]
  have hparts : ∀ c, n.heads c = m.heads c ∧ n.work c = m.work c :=
    fun c => Module.parts_congr (hins c) fun i hi => hop hi
  constructor
  case toDeclares => exact hd
  case tree => exact htree
  case layout => exact hlayout
  case linked =>
    intro i hi
    rw [hsize] at hi
    obtain ⟨c,hc,hp,hmem⟩ := hm.linked i hi
    exact ⟨c,hg.listed c hc,by rw [hg.instr i hi]; exact hp,by rw [hins]; exact hmem⟩
  case member =>
    intro c i hi
    rw [hins] at hi
    obtain ⟨hlt,hp⟩ := hm.member c i hi
    exact ⟨by rwa [hsize],by rw [hg.instr i hlt]; exact hp⟩
  case heads =>
    intro c
    rw [(hparts c).1]
    exact hm.heads c
  case work =>
    intro c
    rw [(hparts c).2]
    exact hm.work c
  case work_op =>
    intro c i hi
    rw [(hparts c).2] at hi
    rw [hop (Laid.mem_work hi)]
    exact hm.work_op c i hi
  case last =>
    intro c i hi
    rw [(hparts c).2] at hi
    rw [hop (Laid.mem_work (dropLast_subset _ hi))]
    exact hm.last c i hi
  case suits =>
    intro i hi c hp
    rw [hsize] at hi
    rw [hg.instr i hi] at *
    have hc := (hm.listed_of_parent hi hp).1
    exact hg.suits hm.tree hc (hm.func_lt hc) (Nat.le_of_lt hi) (hm.suits i hi c hp)
  case mirror => exact hmirror

theorem Laid.of_sameLines {n : Module} (hm : Laid L m ns) (h : SameLines m n)
    (hs : n.sizes = m.sizes) (hmirror : n.Mirror) :
    Laid L n ns ∧ Grows m ns n ns := by
  have hlayout : ∀ f, (n.func f).layout = (m.func f).layout :=
    fun f => Module.layout_of_code (congrFun h.func f)
  have hlisted : ∀ {c}, n.Listed c ↔ m.Listed c := by
    intro c
    rw [Module.Listed,hlayout]
    exact Iff.rfl
  have hblocks : ∀ f, (n.func f).blocks.size = (m.func f).blocks.size :=
    congrFun (congrArg Sizes.blocks hs)
  have hg : Grows m ns n ns := {
    fuller := .of_sizes hs (Nat.le_refl _)
    instr := fun i _ => congrFun h.instr i
    literal := fun c _ => congrFun h.literal c
    global := fun g _ => congrFun h.global g
    name := fun f _ => (Module.signature_of_code (congrFun h.func f)).1
    result := fun f _ => (Module.signature_of_code (congrFun h.func f)).2.1
    params := fun f _ => (Module.signature_of_code (congrFun h.func f)).2.2
    declared := fun f _ => by rw [hlayout]
    listed := fun _ hc => hlisted.mpr hc
    notes := fun _ _ => rfl
    work := fun c => by
      have hparts := Module.parts_congr (h.instrs c) fun i _ =>
        Module.op_of_code (congrFun h.instr i)
      simp only [hparts.2,prefix_rfl] }
  refine ⟨?_,hg⟩
  apply hm.of_grows hg (congrArg Sizes.instrs hs) h.instrs
  · refine ⟨fun c d hc hu => ?_,fun c hc => hm.tree.root c (hlisted.mp hc),
      fun c hc => hm.tree.plain c (hlisted.mp hc)⟩
    obtain ⟨hd,hf⟩ := hm.tree.up c d (hlisted.mp hc) hu
    exact ⟨hlisted.mpr hd,hf⟩
  · intro f
    rw [hlayout,hblocks,hm.layout]
  · exact hmirror
  · exact hm.toDeclares.of_grows hg h.funcs h.globals (congrArg Sizes.funcs hs)
      (congrArg Sizes.globals hs)

end
end CMinusF.Lowering
