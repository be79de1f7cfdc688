import CMinusF.Proofs.Lowering.Built

/-! Lowering goes on in one block and leaves others open. What each operation leaves open. -/
namespace CMinusF.Lowering
open List
open CMinusF.Module (Linked Added Sizes)
variable {ns' : Notes} {c u : BlockId} {es : List BlockId} {f : FuncId}

/-- From a module in which `b` is open, lowering has gone on to one in which `xs` are open in its
place. -/
structure Continues (L : Law) (m : Module) (ns : Notes) (b : BlockId) (m' : Module) (ns' : Notes)
    (xs : List BlockId) : Prop where
  built : Built L m' ns'
  grows : Grows m ns m' ns'
  opened : ∀ c, Open m' c ↔ (Open m c ∧ c ≠ b) ∨ c ∈ xs
  fresh : ∀ c ∈ xs, c = b ∨ ¬ m.Listed c
  untouched : ∀ c, Open m c → c ≠ b → m'.work c = m.work c
  nodup : xs.Nodup
  funcs : m'.funcTable.size = m.funcTable.size

namespace Continues
variable {L : Law} {m m' m'' : Module} {ns ns'' : Notes} {b b' : BlockId} {xs ps ys : List BlockId}

theorem refl (hm : Built L m ns) (hb : Open m b) : Continues L m ns b m ns [b] where
  built := hm
  grows := .refl m ns
  opened c := by
    by_cases hc : c = b
    · simp [hc,hb]
    · simp [hc]
  fresh c hc := .inl (mem_singleton.mp hc)
  untouched _ _ _ := rfl
  nodup := nodup_cons.mpr ⟨not_mem_nil,nodup_nil⟩
  funcs := rfl

theorem trans (h : Continues L m ns b m' ns' (b' :: ps)) (h' : Continues L m' ns' b' m'' ns'' xs) :
    Continues L m ns b m'' ns'' (xs ++ ps) := by
  have hfresh : ∀ c, Open m c → c ≠ b → c ≠ b' ∧ c ∉ ps := by
    intro c hc hne
    have hno : c ∉ b' :: ps := fun hm => (h.fresh c hm).elim hne fun hl => hl hc.1
    exact ⟨fun he => hno (he ▸ mem_cons_self),fun hm => hno (mem_cons_of_mem _ hm)⟩
  have hps : ∀ c ∈ ps, c ≠ b' := fun c hc he => (nodup_cons.mp h.nodup).1 (he ▸ hc)
  have hopen : ∀ c ∈ b' :: ps, Open m' c := fun c hc => (h.opened c).mpr (.inr hc)
  constructor
  case built => exact h'.built
  case grows => exact h.grows.trans h'.grows
  case opened =>
    intro c
    rw [h'.opened,h.opened,mem_append,mem_cons]
    constructor
    · rintro (⟨hc | hc | hc,hne⟩ | hc)
      · exact .inl hc
      · exact absurd hc hne
      · exact .inr (.inr hc)
      · exact .inr (.inl hc)
    · rintro (hc | hc | hc)
      · exact .inl ⟨.inl hc,(hfresh c hc.1 hc.2).1⟩
      · exact .inr hc
      · exact .inl ⟨.inr (.inr hc),hps c hc⟩
  case fresh =>
    intro c hc
    rcases mem_append.mp hc with hc | hc
    · rcases h'.fresh c hc with rfl | hl
      · exact h.fresh c mem_cons_self
      · exact .inr fun hm => hl (h.grows.listed c hm)
    · exact h.fresh c (mem_cons_of_mem _ hc)
  case untouched =>
    intro c hc hne
    rw [h'.untouched c ((h.opened c).mpr (.inl ⟨hc,hne⟩)) (hfresh c hc hne).1,h.untouched c hc hne]
  case nodup =>
    refine nodup_append.mpr ⟨h'.nodup,(nodup_cons.mp h.nodup).2,fun c hc d hd hcd => ?_⟩
    subst hcd
    rcases h'.fresh c hc with he | hl
    · exact hps c hd he
    · exact hl (hopen c (mem_cons_of_mem _ hd)).1
  case funcs => exact h'.funcs.trans h.funcs

theorem perm (h : Continues L m ns b m' ns' xs) (hp : xs.Perm ys) :
    Continues L m ns b m' ns' ys where
  built := h.built
  grows := h.grows
  opened c := by rw [h.opened,hp.mem_iff]
  fresh c hc := h.fresh c (hp.mem_iff.mpr hc)
  untouched := h.untouched
  nodup := hp.nodup_iff.mp h.nodup
  funcs := h.funcs

theorem isOpen (h : Continues L m ns b m' ns' xs) (hc : c ∈ xs) : Open m' c :=
  (h.opened c).mpr (Or.inr hc)

end Continues

section
variable {L : Law} {m n : Module} {ns : Notes} {b d : BlockId} {op : Opcode} {t : Ty}
  {object : Option Ty} {v : Operand} {vs : List Operand}

theorem open_emit (hm : Laid L m ns) (h : Linked m n b op t object vs (m.block b).instrs [])
    (hop : op ≠ .alloca) :
    Open n c ↔ Open m c ∧ (c = b → op.isTerminator = false) := by
  rw [Open,h.listed_iff]
  by_cases hc : c = b
  · subst hc
    rw [(hm.parts_emit h hop).2]
    have hold : ∀ i ∈ m.work c, (n.instr i).op = (m.instr i).op :=
      fun i hi => h.op_old (hm.member c i (Laid.mem_work hi)).1
    constructor
    · rintro ⟨hl,hw⟩
      refine ⟨⟨hl,fun i hi => ?_⟩,fun _ => ?_⟩
      · rw [← hold i hi]
        exact hw i (mem_append_left _ hi)
      · rw [← h.op_new]
        exact hw _ (mem_append_right _ mem_cons_self)
    · rintro ⟨⟨hl,hw⟩,ht⟩
      refine ⟨hl,fun i hi => ?_⟩
      rcases mem_append.mp hi with hi | hi
      · rw [hold i hi]
        exact hw i hi
      · cases mem_singleton.mp hi
        rw [h.op_new]
        exact ht rfl
  · rw [(hm.parts_other h hc).2]
    simp only [hc,false_implies,and_true]
    refine and_congr_right fun _ => forall₂_congr fun i hi => ?_
    rw [h.op_old (hm.member c i (Laid.mem_work hi)).1]

theorem Continues.of_emit (hm : Laid L m ns) (hn : Built L n ns) (hg : Grows m ns n ns)
    (h : Linked m n b op t object vs (m.block b).instrs []) (hop : op ≠ .alloca) (hb : Open m b) :
    Continues L m ns b n ns (if op.isTerminator then [] else [b]) where
  built := hn
  grows := hg
  opened c := by
    rw [open_emit hm h hop]
    by_cases hc : c = b
    · subst hc
      cases op.isTerminator <;> simp [hb]
    · cases op.isTerminator <;> simp [hc]
  fresh c hc := by
    split at hc
    · exact absurd hc not_mem_nil
    · exact .inl (mem_singleton.mp hc)
  untouched c _ hne := (hm.parts_other h hne).2
  nodup := by split <;> simp
  funcs := congrArg Sizes.funcs h.sizes

theorem Continues.emit (hm : Built L m ns) (hb : Open m b) (hop : op ≠ .alloca) (hbr : op ≠ .br)
    (hf : Suits L m ns b m.instrTable.size op t none vs) :
    Continues L m ns b (m.emit b op t vs).1 ns (if op.isTerminator then [] else [b]) := by
  obtain ⟨hl,hg,h⟩ := hm.toLaid.emit hb hop hf
  exact .of_emit hm.toLaid ⟨hl,hm.charted.emit hb.isTerminated hbr t vs⟩ hg h hop hb

theorem Built.entered (hm : Built L m ns) (h : b ∈ (m.block c).preds) :
    Entered m c m.instrTable.size := by
  obtain ⟨t,ht,hc⟩ := (hm.charted.succs b c).mp ((hm.charted.preds b c).mp h)
  exact .inr ⟨t,(hm.member b t ht).1,hc⟩

theorem Continues.branch (hm : Built L m ns) (hb : Open m b)
    (hf : Suits L m ns b m.instrTable.size .br .void none vs)
    (hes : vs.filterMap Module.blockOf? = es) :
    let n := es.foldl (fun m c => m.addEdge b c) (m.emit b .br .void vs).1
    Continues L m ns b n ns [] ∧ ∀ c ∈ es, b ∈ (n.block c).preds := by
  dsimp only
  obtain ⟨hl,hg,h⟩ := hm.toLaid.emit hb (by decide) hf
  have hmem : ∀ c, .block c ∈ vs ↔ c ∈ es := fun c => by rw [← hes,Module.mem_blocksOf]
  have hchart := hm.charted.branch hb.isTerminated hmem
  have hmade : ∀ {c}, m.Made c → (m.emit b .br .void vs).1.Made c :=
    fun hc => hc.of_blocks (funext h.blocks)
  obtain ⟨he,-,hsuccs,hmirror,hsizes⟩ := Module.addEdges (m.emit b .br .void vs).1 b es
  have hsizes := hsizes (hmade (hm.listed_iff.mp hb.1)) fun c hc =>
    hmade (hf.fits.known hm.toLaid hb.1 (Nat.le_refl _) _ ((hmem c).mpr hc))
  obtain ⟨hl',hg'⟩ := hl.of_sameLines he hsizes (hmirror hl.mirror)
  generalize (m.emit b .br .void vs).1 = k at *
  generalize es.foldl (fun m c => m.addEdge b c) k = n at *
  have hop : ∀ i, (n.instr i).op = (k.instr i).op :=
    fun i => Module.op_of_code (congrFun he.instr i)
  have hparts : ∀ c, n.work c = k.work c :=
    fun c => (Module.parts_congr (he.instrs c) fun i _ => hop i).2
  have hblocks := congrArg Sizes.blocks hsizes
  have hopen : ∀ c, Open n c ↔ Open k c := by
    intro c
    rw [Open,Open,hl'.listed_iff,hl.listed_iff,hparts]
    simp only [hop]
    exact and_congr_left fun _ => ⟨fun hx => hx.of_blocks hblocks.symm,
      fun hx => hx.of_blocks hblocks⟩
  refine ⟨?_,fun c hc => (hchart.preds b c).mpr ((hsuccs b c).mpr (Or.inr ⟨rfl,hc⟩))⟩
  constructor
  case built => exact ⟨hl',hchart⟩
  case grows => exact hg.trans hg'
  case opened =>
    intro c
    rw [hopen,open_emit hm.toLaid h (by decide)]
    by_cases hc : c = b
    · subst hc
      simp [Opcode.isTerminator]
    · simp [hc]
  case fresh => exact fun c hc => absurd hc not_mem_nil
  case untouched => exact fun c _ hne => (hparts c).trans (hm.toLaid.parts_other h hne).2
  case nodup => exact nodup_nil
  case funcs => exact (congrArg Sizes.funcs hsizes).trans (congrArg Sizes.funcs h.sizes)

theorem Continues.of_same (hn : Built L n ns') (hg : Grows m ns n ns') (hb : Open m b)
    (hopen : ∀ c, Open n c ↔ Open m c) (hwork : ∀ c, n.work c = m.work c)
    (hfuncs : n.funcTable.size = m.funcTable.size) : Continues L m ns b n ns' [b] where
  built := hn
  grows := hg
  opened c := by grind
  fresh c hc := .inl (mem_singleton.mp hc)
  untouched c _ _ := hwork c
  nodup := nodup_cons.mpr ⟨not_mem_nil,nodup_nil⟩
  funcs := hfuncs

theorem Continues.literal (hm : Built L m ns) (hb : Open m b) (x : Constant) :
    Continues L m ns b (m.addLiteral x).1 ns [b] := by
  have hg : Grows m ns (m.addLiteral x).1 ns := {
    fuller := ⟨Nat.le_refl _,by simp [Module.addLiteral],Nat.le_refl _,Nat.le_refl _⟩
    instr := fun _ _ => rfl
    literal := fun c hc => by
      rw [m.code_addLiteral]
      exact if_neg (Nat.ne_of_lt hc)
    global := fun _ _ => rfl
    name := fun _ _ => rfl
    result := fun _ _ => rfl
    params := fun _ _ => rfl
    declared := fun _ _ => Iff.rfl
    listed := fun _ h => h
    notes := fun _ _ => rfl
    work := fun _ => prefix_rfl }
  have hl : Laid L (m.addLiteral x).1 ns :=
    hm.toLaid.of_grows hg rfl (fun _ => rfl) ⟨hm.tree.up,hm.tree.root,hm.tree.plain⟩
    hm.layout (hm.mirror.addLiteral x) ⟨hm.funcs,hm.globals,hm.contents,hm.signature,hm.builtin⟩
  exact .of_same ⟨hl,hm.charted.addLiteral x⟩ hg hb (fun _ => Iff.rfl) (fun _ => rfl) rfl

theorem Continues.alloca (hm : Built L m ns) (hb : Open m b) {e : BlockId} (he : m.Listed e)
    (h0 : e.number = 0) (ht : Storable t)
    (h : Linked m n e .alloca (.pointer t) (some t) [] (m.heads e) (m.work e)) (hmirror : n.Mirror)
    (hchart : n.Charted) :
    Continues L m ns b n ns [b] := by
  obtain ⟨hl,hg⟩ := hm.toLaid.alloca he h0 ht h hmirror
  have hwork : ∀ c, n.work c = m.work c := by
    intro c
    by_cases hc : c = e
    · rw [hc]
      exact (hm.toLaid.parts_alloca h).2
    · exact (hm.toLaid.parts_other h hc).2
  have hopen : ∀ c, Open n c ↔ Open m c := by
    intro c
    rw [Open,Open,h.listed_iff,hwork]
    refine and_congr_right fun _ => forall₂_congr fun i hi => ?_
    rw [h.op_old (hm.member c i (Laid.mem_work hi)).1]
  exact .of_same ⟨hl,hchart⟩ hg hb hopen hwork (congrArg Sizes.funcs h.sizes)

theorem listed_added (h : Added m n f) (c : BlockId) :
    n.Listed c ↔ m.Listed c ∨ c = ⟨f,(m.func f).blocks.size⟩ := by
  obtain ⟨g,k⟩ := c
  rw [Module.Listed,h.layout,Module.Listed]
  by_cases hg : g = f
  · subst hg
    simp
  · simp [hg]

theorem work_added (h : Added m n f) (c : BlockId) : n.work c = m.work c :=
  (Module.parts_congr (h.lines c).1 fun i _ => by rw [n.op_eq_code,h.instr]; rfl).2

theorem Grows.of_added (hm : Laid L m ns) (h : Added m n f) (hu : m.Listed u) (hf : u.func = f)
    (note : Note) : Grows m ns n (Function.update ns ⟨f,(m.func f).blocks.size⟩ note) where
  fuller := ⟨Nat.le_of_eq (congrArg Sizes.instrs h.sizes).symm,
    Nat.le_of_eq (congrArg Sizes.literals h.sizes).symm,
    Nat.le_of_eq (congrArg Sizes.globals h.sizes).symm,
    Nat.le_of_eq (congrArg Sizes.funcs h.sizes).symm⟩
  instr i _ := congrFun h.instr i
  literal c _ := congrFun h.literal c
  global g _ := congrFun h.global g
  name g _ := (h.signature g).1
  result g _ := (h.signature g).2.1
  params g _ := (h.signature g).2.2
  declared g _ := by
    rw [h.layout]
    split
    · rename_i hg
      have hin : u ∈ (m.func f).layout := hf ▸ hu
      rw [hg]
      simp only [append_eq_nil_iff,reduceCtorEq,and_false,false_iff]
      exact ne_nil_of_mem hin
    · exact Iff.rfl
  listed c hc := (listed_added h c).mpr (.inl hc)
  notes c hc := Function.update_of_ne (fun he => Nat.lt_irrefl _ (hm.listed_iff.mp (he ▸ hc))) _ _
  work c := (work_added h c).symm ▸ prefix_rfl

theorem Built.of_added (hm : Built L m ns) (h : Added m n f) (hu : m.Listed u) (hf : u.func = f)
    (role : Role) (hmirror : n.Mirror) (hchart : n.Charted) :
    Built L n (Function.update ns ⟨f,(m.func f).blocks.size⟩ ⟨some u,role⟩) := by
  have hg := Grows.of_added hm.toLaid h hu hf ⟨some u,role⟩
  have hblocks : ∀ g, (n.func g).blocks.size = (m.func g).blocks.size + if g = f then 1 else 0 :=
    congrFun (congrArg Sizes.blocks h.sizes)
  have hlt : u.number < (m.func f).blocks.size := hf ▸ hm.listed_iff.mp hu
  refine ⟨?_,hchart⟩
  apply hm.toLaid.of_grows hg (congrArg Sizes.instrs h.sizes) fun c => (h.lines c).1
  · refine ⟨fun c d hc hup => ?_,fun c hc => ?_,fun c hc => ?_⟩
    · rcases (listed_added h c).mp hc with hc | rfl
      · rw [hg.notes c hc] at hup
        obtain ⟨hd,hx⟩ := hm.tree.up c d hc hup
        exact ⟨hg.listed d hd,hx⟩
      · rw [Function.update_self] at hup
        cases hup
        exact ⟨hg.listed u hu,hf,hlt⟩
    · rcases (listed_added h c).mp hc with hc | rfl
      · rw [hg.notes c hc]
        exact hm.tree.root c hc
      · rw [Function.update_self]
        simp only [reduceCtorEq,false_iff]
        exact Nat.ne_of_gt (Nat.lt_of_le_of_lt (Nat.zero_le _) hlt)
    · rcases (listed_added h c).mp hc with hc | rfl
      · rw [hg.notes c hc]
        exact hm.tree.plain c hc
      · exact fun h0 => absurd h0 (Nat.ne_of_gt (Nat.lt_of_le_of_lt (Nat.zero_le _) hlt))
  · intro g
    rw [h.layout,hblocks]
    split
    · rename_i hgf
      rw [hgf,hm.layout,range_succ,map_append]
      rfl
    · exact hm.layout g
  · exact hmirror
  · exact hm.toDeclares.of_grows hg h.funcs h.globals (congrArg Sizes.funcs h.sizes)
      (congrArg Sizes.globals h.sizes)

theorem Continues.block (hm : Built L m ns) (hb : Open m b) (hint : String) (hu : m.Listed u)
    (hf : u.func = f) (role : Role) :
    Continues L m ns b (m.addBlock f hint).1
      (Function.update ns ⟨f,(m.func f).blocks.size⟩ ⟨some u,role⟩)
      [b,⟨f,(m.func f).blocks.size⟩] := by
  have h := m.added_addBlock (hf ▸ hm.func_lt hu) hint
  have hmirror := hm.mirror.addBlock f hint
  have hchart := hm.charted.addBlock f hint
  generalize (m.addBlock f hint).1 = n at *
  have hnot : ¬ m.Listed ⟨f,(m.func f).blocks.size⟩ :=
    fun hl => Nat.lt_irrefl _ (hm.listed_iff.mp hl)
  have hne : b ≠ ⟨f,(m.func f).blocks.size⟩ := fun he => hnot (he ▸ hb.1)
  constructor
  case built => exact hm.of_added h hu hf role hmirror hchart
  case grows => exact .of_added hm.toLaid h hu hf _
  case opened =>
    intro c
    have hop : ∀ i, (n.instr i).op = (m.instr i).op := fun i => by rw [n.op_eq_code,h.instr]; rfl
    rw [Open,Open,listed_added h,work_added h]
    simp only [hop,mem_cons,not_mem_nil,or_false]
    constructor
    · rintro ⟨hl | rfl,hw⟩
      · by_cases hc : c = b
        · exact Or.inr (Or.inl hc)
        · exact Or.inl ⟨⟨hl,hw⟩,hc⟩
      · exact Or.inr (Or.inr rfl)
    · rintro (⟨⟨hl,hw⟩,-⟩ | rfl | rfl)
      · exact ⟨Or.inl hl,hw⟩
      · exact ⟨Or.inl hb.1,hb.2⟩
      · refine ⟨Or.inr rfl,fun i hi => ?_⟩
        exact absurd (hm.listed_of_parent (hm.member _ i (Laid.mem_work hi)).1
          (hm.member _ i (Laid.mem_work hi)).2).1 hnot
  case fresh =>
    intro c hc
    rcases mem_cons.mp hc with rfl | hc
    · exact Or.inl rfl
    · rw [mem_singleton.mp hc]
      exact Or.inr hnot
  case untouched => exact fun c _ _ => work_added h c
  case nodup => simp [hne]
  case funcs => exact congrArg Sizes.funcs h.sizes

end
end CMinusF.Lowering
