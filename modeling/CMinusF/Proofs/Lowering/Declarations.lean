import CMinusF.Proofs.Lowering.Emission

/-! Declarations leave a module as it should be, and no block open but the entry of the function
they define. -/
namespace CMinusF.Lowering
open List
open CMinusF.Module (Sizes)

section
variable {L : Law} {m n : Module} {ns : Notes} {b c d : BlockId}

theorem Built.empty (name : String) (ns : Notes) : Built L (Module.empty name) ns := by
  have hfunc : ∀ f, (Module.empty name).func f = default := fun f => by
    simp [Module.empty,Module.func]
  have hblock : ∀ c, (Module.empty name).block c = default := fun c => by
    rw [Module.block,hfunc]
    exact Table.get_empty _
  have hnone : ∀ c, ¬ (Module.empty name).Listed c := fun c hc => by
    rw [Module.Listed,hfunc] at hc
    exact absurd hc not_mem_nil
  have hwork : ∀ c, (Module.empty name).work c = [] ∧
      (Module.empty name).heads c = [] := fun c => by
    rw [Module.work,Module.heads,hblock]
    exact ⟨rfl,rfl⟩
  constructor
  · constructor
    case toDeclares =>
      exact ⟨rfl,rfl,fun g hg => absurd hg (Nat.not_lt_zero g),
        fun g hg => absurd hg (Nat.not_lt_zero g),fun g hg => absurd hg (Nat.not_lt_zero g)⟩
    case tree =>
      exact ⟨fun c _ hc => absurd hc (hnone c),fun c hc => absurd hc (hnone c),
        fun c hc => absurd hc (hnone c)⟩
    case layout =>
      intro f
      rw [hfunc]
      rfl
    case linked => exact fun i hi => absurd hi (Nat.not_lt_zero i)
    case member =>
      intro c i hi
      rw [hblock] at hi
      exact absurd hi not_mem_nil
    case heads =>
      intro c
      rw [(hwork c).2]
      exact List.Pairwise.nil
    case work =>
      intro c
      rw [(hwork c).1]
      exact List.Pairwise.nil
    case work_op => simp_all
    case last => simp_all
    case suits => exact fun i hi => absurd hi (Nat.not_lt_zero i)
    case mirror => exact .empty name
  · exact .empty name

/-- What the other parts of a module say stays so when a function is added. -/
structure Joins (m n : Module) : Prop where
  instr : n.code.instr = m.code.instr
  literal : n.code.literal = m.code.literal
  global : n.code.global = m.code.global
  globals : n.globals = m.globals
  funcs : n.funcs = m.funcs ++ [m.funcTable.size]
  func : ∀ f, f ≠ m.funcTable.size → n.func f = m.func f
  lines : ∀ c, (n.block c).instrs = (m.block c).instrs
  instrs : n.instrTable.size = m.instrTable.size
  literals : n.literalTable.size = m.literalTable.size
  globalTable : n.globalTable.size = m.globalTable.size
  funcTable : n.funcTable.size = m.funcTable.size + 1

theorem Joins.work (h : Joins m n) (c : BlockId) : n.work c = m.work c :=
  (Module.parts_congr (h.lines c) fun i _ => Module.op_of_code (congrFun h.instr i)).2

theorem Built.of_joins {ns' : Notes} (hm : Built L m ns) (h : Joins m n) (hmirror : n.Mirror)
    (hchart : n.Charted) (hlayout : (n.func m.funcTable.size).layout =
      (List.range (n.func m.funcTable.size).blocks.size).map (BlockId.mk m.funcTable.size))
    (hblocks : (n.func m.funcTable.size).blocks.size ≤ 1)
    (hnotes : ∀ c, c.func ≠ m.funcTable.size → ns' c = ns c)
    (hentry : ns' ⟨m.funcTable.size,0⟩ = ⟨none,.plain⟩)
    (hsig : IsSignature (n.func m.funcTable.size).result (n.func m.funcTable.size).params)
    (hbuiltin : (n.func m.funcTable.size).layout = [] →
      ∃ x : Builtin, (n.func m.funcTable.size).name = x.name ∧
      (n.func m.funcTable.size).result = x.result ∧ (n.func m.funcTable.size).params = x.params) :
    Built L n ns' ∧ Grows m ns n ns' ∧ ∀ c, Open n c ↔
      Open m c ∨ (c = ⟨m.funcTable.size,0⟩ ∧ n.Listed c) := by
  have hold : ∀ c, m.Listed c → c.func ≠ m.funcTable.size :=
    fun c hc => Nat.ne_of_lt (hm.func_lt hc)
  have hlisted : ∀ c, n.Listed c ↔ m.Listed c ∨ (c = ⟨m.funcTable.size,0⟩ ∧ n.Listed c) := by
    intro c
    by_cases hc : c.func = m.funcTable.size
    · constructor
      · intro hl
        refine .inr ⟨?_,hl⟩
        obtain ⟨f,k⟩ := c
        change f = m.funcTable.size at hc
        subst hc
        rw [Module.Listed,hlayout] at hl
        grind
      · grind
    · have : n.Listed c ↔ m.Listed c := by rw [Module.Listed,h.func _ hc]; exact Iff.rfl
      grind
  have hg : Grows m ns n ns' := {
    fuller := ⟨Nat.le_of_eq h.instrs.symm,Nat.le_of_eq h.literals.symm,
      Nat.le_of_eq h.globalTable.symm,by rw [h.funcTable]; exact Nat.le_succ _⟩
    instr := fun i _ => congrFun h.instr i
    literal := fun c _ => congrFun h.literal c
    global := fun g _ => congrFun h.global g
    name := fun f hf => by rw [h.func f (Nat.ne_of_lt hf)]
    result := fun f hf => by rw [h.func f (Nat.ne_of_lt hf)]
    params := fun f hf => by rw [h.func f (Nat.ne_of_lt hf)]
    declared := fun f hf => by rw [h.func f (Nat.ne_of_lt hf)]
    listed := fun c hc => (hlisted c).mpr (.inl hc)
    notes := fun c hc => hnotes c (hold c hc)
    work := fun c => (h.work c).symm ▸ prefix_rfl }
  have hcases : ∀ {f}, f < n.funcTable.size → f < m.funcTable.size ∨ f = m.funcTable.size :=
      fun hf => by
    rw [h.funcTable] at hf
    exact Nat.lt_or_eq_of_le (Nat.le_of_lt_succ hf)
  refine ⟨⟨?_,hchart⟩,hg,fun c => ?_⟩
  · apply hm.toLaid.of_grows hg h.instrs h.lines
    · refine ⟨fun c d hc hup => ?_,fun c hc => ?_,fun c hc => ?_⟩
      · rcases (hlisted c).mp hc with hc | ⟨rfl,hc⟩
        · rw [hg.notes c hc] at hup
          obtain ⟨hd,hx⟩ := hm.tree.up c d hc hup
          exact ⟨hg.listed d hd,hx⟩
        · rw [hentry] at hup
          cases hup
      · rcases (hlisted c).mp hc with hc | ⟨rfl,hc⟩
        · rw [hg.notes c hc]
          exact hm.tree.root c hc
        · rw [hentry]
          exact ⟨fun _ => rfl,fun _ => rfl⟩
      · rcases (hlisted c).mp hc with hc | ⟨rfl,hc⟩
        · rw [hg.notes c hc]
          exact hm.tree.plain c hc
        · rw [hentry]
          exact fun _ => rfl
    · intro f
      by_cases hf : f = m.funcTable.size
      · rw [hf]
        exact hlayout
      · rw [h.func f hf]
        exact hm.layout f
    · exact hmirror
    · refine ⟨by rw [h.funcs,hm.funcs,h.funcTable,range_succ],
        by rw [h.globals,hm.globals,h.globalTable],fun g hgl => ?_,fun f hf => ?_,fun f hf hl => ?_⟩
      · rw [Code.contents,h.global]
        exact hm.contents g (by rwa [h.globalTable] at hgl)
      · rcases hcases hf with hf | rfl
        · rw [h.func f (Nat.ne_of_lt hf)]
          exact hm.signature f hf
        · exact hsig
      · rcases hcases hf with hf | rfl
        · rw [h.func f (Nat.ne_of_lt hf)] at hl ⊢
          exact hm.builtin f hf hl
        · exact hbuiltin hl
  · have hop : ∀ i, (n.instr i).op = (m.instr i).op :=
      fun i => Module.op_of_code (congrFun h.instr i)
    rw [Open,h.work]
    simp only [hop]
    constructor
    · rintro ⟨hl,hw⟩
      exact ((hlisted c).mp hl).imp_left fun hl => ⟨hl,hw⟩
    · rintro (⟨hl,hw⟩ | hl)
      · exact ⟨(hlisted c).mpr (.inl hl),hw⟩
      · refine ⟨hl.2,fun i hi => ?_⟩
        obtain ⟨hlt,hp⟩ := hm.member c i (Laid.mem_work hi)
        exact absurd (congrArg BlockId.func hl.1) (hold c (hm.listed_of_parent hlt hp).1)

theorem joins_addFunc (m : Module) (name : String) (result : Ty) (params : List Ty) :
    Joins m (m.addFunc name result params).1 where
  instr := rfl
  literal := rfl
  global := rfl
  globals := rfl
  funcs := rfl
  func f hf := by rw [m.func_addFunc,if_neg hf]
  lines c := by
    rw [m.block_addFunc]
  instrs := rfl
  literals := rfl
  globalTable := rfl
  funcTable := Table.size_push _ _

theorem Joins.addBlock (h : Joins m n) (hint : String) :
    Joins m (n.addBlock m.funcTable.size hint).1 := by
  have ha := n.added_addBlock (by rw [h.funcTable]; exact Nat.lt_succ_self _) hint
  have hfunc : ∀ f, f ≠ m.funcTable.size → (n.addBlock m.funcTable.size hint).1.func f =
      n.func f := by
    intro f hf
    simp only [Module.addBlock,Module.makeBlock,Module.func_modifyFunc,if_neg (Ne.symm hf)]
  generalize (n.addBlock m.funcTable.size hint).1 = k at *
  exact {
    instr := ha.instr.trans h.instr
    literal := ha.literal.trans h.literal
    global := ha.global.trans h.global
    globals := ha.globals.trans h.globals
    funcs := ha.funcs.trans h.funcs
    func := fun f hf => (hfunc f hf).trans (h.func f hf)
    lines := fun c => (ha.lines c).1.trans (h.lines c)
    instrs := (congrArg Sizes.instrs ha.sizes).trans h.instrs
    literals := (congrArg Sizes.literals ha.sizes).trans h.literals
    globalTable := (congrArg Sizes.globals ha.sizes).trans h.globalTable
    funcTable := (congrArg Sizes.funcs ha.sizes).trans h.funcTable }

def withEntry (m : Module) (name : String) (result : Ty) (params : List Ty) : Module :=
  ((m.addFunc name result params).1.addBlock m.funcTable.size "entry").1

theorem joins_withEntry (m : Module) (name : String) (result : Ty) (params : List Ty) :
    Joins m (withEntry m name result params) :=
  (joins_addFunc m name result params).addBlock "entry"

theorem func_withEntry (m : Module) (name : String) (result : Ty) (params : List Ty) :
    ((withEntry m name result params).func m.funcTable.size).name = name ∧
    ((withEntry m name result params).func m.funcTable.size).result = result ∧
    ((withEntry m name result params).func m.funcTable.size).params = params ∧
    ((withEntry m name result params).func m.funcTable.size).layout = [⟨m.funcTable.size,0⟩] ∧
    ((withEntry m name result params).func m.funcTable.size).blocks.size = 1 := by
  have hfunc := m.func_addFunc name result params m.funcTable.size
  rw [if_pos rfl] at hfunc
  have hlt : m.funcTable.size < (m.addFunc name result params).1.funcTable.size := by
    rw [(joins_addFunc m name result params).funcTable]
    exact Nat.lt_succ_self _
  have h := (m.addFunc name result params).1.added_addBlock hlt "entry"
  unfold withEntry
  generalize (m.addFunc name result params).1 = k at *
  generalize (k.addBlock m.funcTable.size "entry").1 = n at *
  obtain ⟨h1,h2,h3⟩ := h.signature m.funcTable.size
  have hl := h.layout m.funcTable.size
  have hs := congrFun (congrArg Sizes.blocks h.sizes) m.funcTable.size
  rw [hfunc] at h1 h2 h3 hl
  refine ⟨h1,h2,h3,by rw [hl,if_pos rfl]; rfl,?_⟩
  have hs' : (n.func m.funcTable.size).blocks.size =
    (k.func m.funcTable.size).blocks.size + if m.funcTable.size = m.funcTable.size then 1
    else 0 := hs
  rw [hs',hfunc,if_pos rfl]
  rfl

theorem Built.withEntry (hm : Built L m ns) (name : String) {result : Ty} {params : List Ty}
    (hsig : IsSignature result params) :
    ∃ ns', Built L (withEntry m name result params) ns' ∧
      Grows m ns (withEntry m name result params) ns' ∧
      (∀ c, Open (Lowering.withEntry m name result params) c ↔
        Open m c ∨ c = ⟨m.funcTable.size,0⟩) ∧
      ns' ⟨m.funcTable.size,0⟩ = ⟨none,.plain⟩ ∧
      (Lowering.withEntry m name result params).work ⟨m.funcTable.size,0⟩ = [] := by
  have hj := joins_withEntry m name result params
  obtain ⟨h1,h2,h3,h4,h5⟩ := func_withEntry m name result params
  have hmirror : (Lowering.withEntry m name result params).Mirror :=
    (hm.mirror.addFunc name result params).addBlock _ _
  have hchart : (Lowering.withEntry m name result params).Charted :=
    (hm.charted.addFunc name result params).addBlock _ _
  generalize Lowering.withEntry m name result params = n at *
  let ns' : Notes := fun c => if c.func = m.funcTable.size then ⟨none,.plain⟩ else ns c
  obtain ⟨hb,hg,ho⟩ := hm.of_joins hj hmirror hchart (by rw [h4,h5]; rfl) (Nat.le_of_eq h5)
    (fun c hc => (if_neg hc : ns' c = ns c)) (if_pos rfl)
    (by rw [h2,h3]; exact hsig) (fun hl => by rw [h4] at hl; cases hl)
  have hlisted : n.Listed ⟨m.funcTable.size,0⟩ := by
    rw [Module.Listed,h4]
    exact mem_cons_self
  refine ⟨ns',hb,hg,fun c => ?_,if_pos rfl,?_⟩
  · grind
  · rw [hj.work]
    cases hw : m.work ⟨m.funcTable.size,0⟩ with
    | nil => rfl
    | cons i is =>
      have hi : i ∈ m.work ⟨m.funcTable.size,0⟩ := by rw [hw]; exact mem_cons_self
      obtain ⟨hlt,hp⟩ := hm.member _ i (Laid.mem_work hi)
      exact absurd (hm.func_lt (hm.listed_of_parent hlt hp).1) (Nat.lt_irrefl _)

theorem Built.addFunc (hm : Built L m ns) (x : Builtin) (hsig : IsSignature x.result x.params) :
    ∃ ns', Built L (m.addFunc x.name x.result x.params).1 ns' ∧
      Grows m ns (m.addFunc x.name x.result x.params).1 ns' ∧
      ∀ c, Open (m.addFunc x.name x.result x.params).1 c ↔ Open m c := by
  have hj := joins_addFunc m x.name x.result x.params
  have hfunc := m.func_addFunc x.name x.result x.params m.funcTable.size
  rw [if_pos rfl] at hfunc
  have hmirror := hm.mirror.addFunc x.name x.result x.params
  have hchart := hm.charted.addFunc x.name x.result x.params
  generalize (m.addFunc x.name x.result x.params).1 = n at *
  let ns' : Notes := fun c => if c.func = m.funcTable.size then ⟨none,.plain⟩ else ns c
  obtain ⟨hb,hg,ho⟩ := hm.of_joins hj hmirror hchart (by rw [hfunc]; rfl)
    (by rw [hfunc]; exact Nat.zero_le _)
    (fun c hc => (if_neg hc : ns' c = ns c)) (if_pos rfl) (by rw [hfunc]; exact hsig)
      (fun _ => by rw [hfunc]; exact ⟨x,rfl,rfl,rfl⟩)
  refine ⟨ns',hb,hg,fun c => ?_⟩
  rw [ho]
  refine ⟨fun h => h.elim id fun h => ?_,.inl⟩
  rw [Module.Listed,h.1,hfunc] at h
  exact absurd h.2 not_mem_nil

theorem Built.addGlobal (hm : Built L m ns) (name : String) {t : Ty}
    (ht : (∃ s, t = scalarType s) ∨ ∃ k s, t = .array k (scalarType s)) :
    Built L (m.addGlobal name t).1 ns ∧ Grows m ns (m.addGlobal name t).1 ns ∧
      (m.addGlobal name t).1.code.global m.globalTable.size = ⟨name,t,[]⟩ ∧
      m.globalTable.size < (m.addGlobal name t).1.globalTable.size := by
  have hcont : ∀ g, (m.addGlobal name t).1.code.global g = if g = m.globalTable.size
      then ⟨name,t,[]⟩ else m.code.global g := by
    intro g
    show ((m.addGlobal name t).1.globalTable.get g).bare = _
    rw [show (m.addGlobal name t).1.globalTable = m.globalTable.push ⟨name,t,[]⟩
      from rfl,Table.get_push]
    split <;> rfl
  have hsize : (m.addGlobal name t).1.globalTable.size = m.globalTable.size + 1 :=
    Table.size_push _ _
  have hg : Grows m ns (m.addGlobal name t).1 ns := {
    fuller := ⟨Nat.le_refl _,Nat.le_refl _,by rw [hsize]; exact Nat.le_succ _,Nat.le_refl _⟩
    instr := fun _ _ => rfl
    literal := fun _ _ => rfl
    global := fun g hg => by rw [hcont,if_neg (Nat.ne_of_lt hg)]
    name := fun _ _ => rfl
    result := fun _ _ => rfl
    params := fun _ _ => rfl
    declared := fun _ _ => Iff.rfl
    listed := fun _ h => h
    notes := fun _ _ => rfl
    work := fun _ => prefix_rfl }
  have hl : Laid L (m.addGlobal name t).1 ns := by
    refine hm.toLaid.of_grows hg rfl (fun _ => rfl)
      ⟨hm.tree.up,hm.tree.root,hm.tree.plain⟩ hm.layout
      (hm.mirror.addGlobal name t) ⟨hm.funcs,?_,fun g hgl => ?_,hm.signature,hm.builtin⟩
    · rw [hsize,range_succ,← hm.globals]
      rfl
    · rw [Code.contents,hcont]
      split
      · exact ht
      · rename_i hne
        rw [hsize] at hgl
        exact hm.contents g (Nat.lt_of_le_of_ne (Nat.le_of_lt_succ hgl) hne)
  exact ⟨⟨hl,hm.charted.addGlobal name t⟩,hg,by rw [hcont,if_pos rfl],
    by rw [hsize]; exact Nat.lt_succ_self _⟩

end
end CMinusF.Lowering
