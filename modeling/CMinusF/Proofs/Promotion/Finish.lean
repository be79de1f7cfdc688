import CMinusF.Proofs.Promotion.Walk

/-! The end of promoting: blocks that are never reached are renamed, too, what has become useless is
erased, and nothing mentions the locals any more. -/
namespace CMinusF
open CMinusF.Module List
variable {m n : Module} {f : FuncId} {e b : BlockId} {done : InstrId → Prop} {D : Draft}
  {r : Promotion.Renaming} {i : InstrId}

section
variable {names : Promotion.Names}

/-! Blocks that are never reached. -/

structure Blanked (m : Module) (f : FuncId) (names : Promotion.Names)
    (done : InstrId → Prop) (D : Draft) (r : Promotion.Renaming) (D' : Draft)
    (r' : Promotion.Renaming) : Prop where
  grows : D.Grows D'
  feeds : D'.feeds = D.feeds
  renamed : Renamed m f names done D' r'
  extends_ : r.module.Extends r'.module

theorem Blanked.trans {done' : InstrId → Prop} {D' D'' : Draft}
    {r' r'' : Promotion.Renaming} (h : Blanked m f names done D r D' r')
    (h' : Blanked m f names done' D' r' D'' r'') : Blanked m f names done' D r D'' r'' :=
  ⟨h.grows.trans h'.grows,h'.feeds.trans h.feeds,h'.renamed,h.extends_.trans h'.extends_⟩

theorem Renamed.renameUnreached (h : Renamed m f names done D r)
    (hP : Promotable m f names.tracked.get) (hi : i < m.instrTable.size) (hdone : ¬done i) :
    ∃ D', Blanked m f names (fun j => done j ∨ j = i) D r D'
      (Promotion.renameUnreached names r i) := by
  have hpass : (D.base names.tracked.get).loadOf? m i = none →
    (D.base names.tracked.get).storeOf? m i = none →
      ∃ D', Blanked m f names (fun j => done j ∨ j = i) D r D' r :=
    fun hl hs => ⟨D,.refl D,rfl,h.pass hl hs,.refl _⟩
  have hload := h.loadOf?_eq hP hi
  have hstore := h.storeOf?_eq hP hi
  unfold Promotion.renameUnreached
  split
  · rename_i hop
    rw [hop] at hload hstore
    cases ha : names.target? (r.module.operand i 1) with
    | some a =>
      rw [ha] at hstore
      exact ⟨D,.refl D,rfl,h.addDead hstore,.refl _⟩
    | none =>
      rw [ha] at hstore
      exact hpass hload hstore
  · rename_i hop
    rw [hop] at hload hstore
    simp only [↓reduceIte] at hload hstore
    split
    · rename_i a ha
      rw [ha] at hload
      have h1 := h.addLiteral (.undef (Promotion.objectOf r.module a))
      have hv : Resolved m f names
        (r.module.addLiteral (.undef (Promotion.objectOf r.module a))).2 :=
        .literal r.module.literalTable.size
      have h4 := Extends.addLiteral r.module (.undef (Promotion.objectOf r.module a))
      generalize r.module.addLiteral (.undef (Promotion.objectOf r.module a)) = c at h1 hv h4
      have hr := h1.replaceUses hload hdone hv
      have hlit := congrArg Code.literal
        (code_replaceUses h1.drafted.mirror (.instr i) (by simp) c.2).1
      have hext : c.1.Extends (c.1.replaceUses (.instr i) c.2) := .of_code hlit
      exact ⟨{ D with value := Function.update D.value i (some c.2) },h.grows_update hdone c.2,rfl,
        hr,h4.trans hext⟩
    · grind
  · simp_all

theorem Renamed.renameUnreached_of_phi (h : Renamed m f names done D r)
    (hF : Formed m f e) (hb : b ∈ (m.func f).layout) (hi : i ∈ m.phis b ∨ i ∈ D.newPhis b) :
    Promotion.renameUnreached names r i = r := by
  have hop : (r.module.instr i).op = .phi := by
    rcases hi with hi | hi
    · exact (h.op_eq (hF.lt_size hb (phis_subset m b hi))).trans (op_of_mem_phis hi)
    · exact h.op_newPhi hi
  rw [Promotion.renameUnreached,hop]

theorem Renamed.foldl_renameUnreached (hF : Formed m f e) (hP : Promotable m f names.tracked.get)
    (hb : b ∈ (m.func f).layout) (is : List InstrId) (h : Renamed m f names done D r)
    (his : ∀ i ∈ is, (i ∈ m.phis b ∨ i ∈ D.newPhis b) ∨ i ∈ m.body b) (hnd : is.Nodup)
    (hdone : ∀ i ∈ is, i ∈ m.body b → ¬done i) :
    ∃ D', Blanked m f names (fun j => done j ∨ j ∈ is ∧ j ∈ m.body b) D r D'
      (is.foldl (Promotion.renameUnreached names) r) := by
  induction is generalizing done D r with
  | nil => exact ⟨D,.refl D,rfl,by simpa using h,.refl _⟩
  | cons i is ih =>
    rw [foldl_cons]
    have hnd' := nodup_cons.mp hnd
    by_cases hi : i ∈ m.body b
    · obtain ⟨D1,h1⟩ := h.renameUnreached hP (hF.lt_size hb (body_subset m b hi))
        (hdone i mem_cons_self hi)
      obtain ⟨D2,h2⟩ := ih h1.renamed (fun j hj => by
          rw [h1.grows.newPhis]
          exact his j (mem_cons_of_mem _ hj)) hnd'.2 (by
          rintro j hj hjb (hd | rfl)
          · exact hdone j (mem_cons_of_mem _ hj) hjb hd
          · exact hnd'.1 hj)
      have hd : (fun j => (done j ∨ j = i) ∨ j ∈ is ∧ j ∈ m.body b) = fun j => done j ∨
          j ∈ i :: is ∧ j ∈ m.body b := by
        funext j
        rw [eq_iff_iff,or_assoc,mem_cons]
        refine or_congr_right ⟨?_,?_⟩
        · rintro (rfl | ⟨hj,hjb⟩)
          · exact ⟨.inl rfl,hi⟩
          · exact ⟨.inr hj,hjb⟩
        · rintro ⟨rfl | hj,hjb⟩
          · exact .inl rfl
          · exact .inr ⟨hj,hjb⟩
      exact ⟨D2,hd ▸ h1.trans h2⟩
    · have hph := (his i mem_cons_self).resolve_right hi
      rw [h.renameUnreached_of_phi hF hb hph]
      obtain ⟨D2,h2⟩ := ih h (fun j hj => his j (mem_cons_of_mem _ hj)) hnd'.2
        (fun j hj => hdone j (mem_cons_of_mem _ hj))
      have hd : (fun j => done j ∨ j ∈ is ∧ j ∈ m.body b) = fun j => done j ∨ j ∈ i :: is ∧
          j ∈ m.body b := by
        funext j
        rw [eq_iff_iff,mem_cons]
        refine or_congr_right ⟨fun hj => ⟨.inr hj.1,hj.2⟩,?_⟩
        rintro ⟨rfl | hj,hjb⟩
        · exact absurd hjb hi
        · exact ⟨hj,hjb⟩
      exact ⟨D2,hd ▸ h2⟩

end

/-! The order of the instructions while phis are new and nothing is gone. -/

/-- New phis are numbered after all old instructions, and each stands in one block. -/
theorem Drafted.nodup_line (h : Drafted m n f D)
    (hF : Formed m f e) (hD : ∀ b, (D.newPhis b).Nodup) (hb : b ∈ (m.func f).layout) :
    (D.line m b).Nodup := by
  have hnd : (m.phis b ++ m.body b).Nodup := by
    rw [← instrs_eq_phis_append]
    exact (nodup_flatMap.mp hF.nodup).1 b hb
  obtain ⟨h1,h2,h3⟩ := nodup_append.mp hnd
  have hnew : ∀ i ∈ (m.block b).instrs, i ∉ D.newPhis b := fun i hi hq =>
    absurd (hF.lt_size hb hi) (Nat.not_lt.mpr (h.fits.newPhi b i hq).1)
  refine nodup_append.mpr ⟨nodup_append.mpr ⟨h1,hD b,?_⟩,h2,?_⟩
  · rintro x hx y hy rfl
    exact hnew x (phis_subset m b hx) hy
  · rintro x hx y hy rfl
    rcases mem_append.mp hx with hx | hx
    · exact h3 x hx x hy rfl
    · exact hnew x (body_subset m b hy) hx

theorem Drafted.eq_of_mem_line {b' : BlockId}
    (h : Drafted m n f D) (hF : Formed m f e) (hb : b ∈ (m.func f).layout)
    (hb' : b' ∈ (m.func f).layout) (hi : i ∈ D.line m b) (hi' : i ∈ D.line m b') : b = b' := by
  have hcase : ∀ c, i ∈ D.line m c → i ∈ (m.block c).instrs ∨ i ∈ D.newPhis c := by
    intro c hc
    rw [instrs_eq_phis_append]
    simp only [Draft.line,mem_append] at hc ⊢
    grind
  rcases hcase b hi with hi | hi <;> rcases hcase b' hi' with hi' | hi'
  · have h1 := hF.parent b hb i hi
    rw [hF.parent b' hb' i hi',Option.some.injEq] at h1
    exact h1.symm
  · exact absurd (hF.lt_size hb hi) (Nat.not_lt.mpr (h.fits.newPhi b' i hi').1)
  · exact absurd (hF.lt_size hb' hi') (Nat.not_lt.mpr (h.fits.newPhi b i hi).1)
  · have h1 := (h.fits.newPhi b i hi).2.2.1
    rw [(h.fits.newPhi b' i hi').2.2.1,Option.some.injEq] at h1
    exact h1.symm

theorem Drafted.nodup_lines (h : Drafted m n f D)
    (hF : Formed m f e) (hD : ∀ b, (D.newPhis b).Nodup) :
    ((m.func f).layout.flatMap (D.line m)).Nodup := by
  refine nodup_flatMap.mpr ⟨fun b hb => h.nodup_line hF hD hb,?_⟩
  refine hF.layout_nodup.imp_of_mem fun hb hb' hne => ?_
  intro i hi hi'
  exact hne (h.eq_of_mem_line hF hb hb' hi hi')

section
variable {names : Promotion.Names}
  {start finish : BlockId → InstrId → Option Operand}

theorem Formed.eq_of_mem_body (hF : Formed m f e) {c : BlockId} (hb : b ∈ (m.func f).layout)
    (hc : c ∈ (m.func f).layout) (hi : i ∈ m.body b) (hi' : i ∈ m.body c) : b = c := by
  have h1 := hF.parent b hb i (body_subset m b hi)
  rw [hF.parent c hc i (body_subset m c hi'),Option.some.injEq] at h1
  exact h1.symm

theorem Renamed.foldl_unreached (hF : Formed m f e) (hP : Promotable m f names.tracked.get)
    (hnew : ∀ b, (D.newPhis b).Nodup) (bs : List BlockId) (hnd : bs.Nodup)
    (hbs : bs ⊆ (m.func f).layout)
    (h : Renamed m f names done D r) (hdone : ∀ b ∈ bs, ∀ i ∈ m.body b, ¬done i) :
    ∃ D', Blanked m f names (fun j => done j ∨ ∃ b ∈ bs, j ∈ m.body b) D r D'
      (bs.foldl (fun r b => (r.module.block b).instrs.foldl
        (Promotion.renameUnreached names) r) r) := by
  induction bs generalizing done D r with
  | nil => exact ⟨D,.refl D,rfl,by simpa using h,.refl _⟩
  | cons b bs ih =>
    have hb := hbs mem_cons_self
    have hnd' := nodup_cons.mp hnd
    have hline : (r.module.block b).instrs = D.line m b := h.instrs_eq hb
    rw [foldl_cons,hline]
    obtain ⟨D1,h1⟩ := h.foldl_renameUnreached hF hP hb (D.line m b)
      (fun i hi => (mem_append.mp hi).imp_left mem_append.mp) (h.drafted.nodup_line hF hnew hb)
      (fun i _ hi => hdone b mem_cons_self i hi)
    obtain ⟨D2,h2⟩ := ih (by rwa [h1.grows.newPhis]) hnd'.2 (fun c hc => hbs (mem_cons_of_mem _ hc))
      h1.renamed (by
      rintro c hc i hi (hd | ⟨_,hib⟩)
      · exact hdone c (mem_cons_of_mem _ hc) i hi hd
      · exact hnd'.1 (hF.eq_of_mem_body hb (hbs (mem_cons_of_mem _ hc)) hib hi ▸ hc))
    have hd : (fun j => (done j ∨ j ∈ D.line m b ∧ j ∈ m.body b) ∨ ∃ c ∈ bs, j ∈ m.body c) =
        fun j => done j ∨ ∃ c ∈ b :: bs, j ∈ m.body c := by
      funext j
      have hsub : j ∈ D.line m b ∧ j ∈ m.body b ↔ j ∈ m.body b :=
        and_iff_right_of_imp fun hj => mem_append_right _ hj
      simp only [hsub,mem_cons,exists_eq_or_imp,or_assoc]
    exact ⟨D2,hd ▸ h1.trans h2⟩

structure Complete (m : Module) (f : FuncId) (e : BlockId) (names : Promotion.Names) (D : Draft)
    (start finish : BlockId → InstrId → Option Operand) (r : Promotion.Renaming) : Prop where
  renamed : Renamed m f names (fun i => ∃ b ∈ (m.func f).layout, i ∈ m.body b) D r
  named : Named names D
  starts : ∀ b, m.Reaches e b → start b = D.startOf (worthAbove m f e finish b) b
  ends : ∀ b, m.Reaches e b → finish b = (D.base names.tracked.get).through m (start b) (m.body b)
  fed : ∀ b, m.Reaches e b → LoadsFed m r.module (D.base names.tracked.get) (start b) (m.body b)
  fedAll : ∀ q, m.Reaches e q → ∀ s ∈ m.succs q, ∀ p ∈ D.newPhis s, ∃ v, (v,q) ∈ D.feeds p
  fedBy : ∀ p, ∀ x ∈ D.feeds p, m.Reaches e x.2 ∧ Feeds r.module (finish x.2 (D.localOf p)) x.1
  fedOnce : ∀ p c, ((D.feeds p).map (·.2)).count c ≤ ((m.succs c).flatMap D.newPhis).count p

theorem Walked.complete (h : Walked m f e names (m.Reaches e) D start finish r) (hF : Formed m f e)
    (hP : Promotable m f names.tracked.get) : ∃ D', D.Grows D' ∧
      Complete m f e names D' start finish
      (((m.func f).layout.filter fun b => !(m.dominators f).reachable b).foldl
        (fun r b => (r.module.block b).instrs.foldl (Promotion.renameUnreached names) r) r) := by
  have hun : ∀ b, b ∈ ((m.func f).layout.filter fun b => !(m.dominators f).reachable b) ↔
      b ∈ (m.func f).layout ∧ ¬m.Reaches e b := by
    intro b
    rw [mem_filter,← hF.flowGraph.reachable_iff]
    simp
  obtain ⟨D',h'⟩ := h.renamed.foldl_unreached hF hP h.named.nodup _ (hF.layout_nodup.filter _)
    (fun b hb => ((hun b).mp hb).1) (by
      rintro b hb i hi ⟨c,hc,hic⟩
      obtain ⟨hbl,hnr⟩ := (hun b).mp hb
      exact hnr (hF.eq_of_mem_body hbl (hF.mem_layout hc) hi hic ▸ hc))
  have hdone : (fun j => (∃ b, m.Reaches e b ∧ j ∈ m.body b) ∨
      ∃ b ∈ ((m.func f).layout.filter fun b => !(m.dominators f).reachable b), j ∈ m.body b) =
      fun i => ∃ b ∈ (m.func f).layout, i ∈ m.body b := by
    funext j
    rw [eq_iff_iff]
    constructor
    · rintro (⟨b,hb,hj⟩ | ⟨b,hb,hj⟩)
      · exact ⟨b,hF.mem_layout hb,hj⟩
      · exact ⟨b,((hun b).mp hb).1,hj⟩
    · rintro ⟨b,hb,hj⟩
      by_cases hr : m.Reaches e b
      · exact Or.inl ⟨b,hr,hj⟩
      · exact Or.inr ⟨b,(hun b).mpr ⟨hb,hr⟩,hj⟩
  have hR := h'.renamed
  rw [hdone] at hR
  refine ⟨D',h'.grows,hR,h.named.grows h'.grows,?_,?_,?_,?_,?_,?_⟩
  · intro b hb
    rw [h.starts b hb,h'.grows.startOf]
  · intro b hb
    rw [h.ends b hb,h'.grows.through_eq (m.body b) (h.settled b hb)]
  · intro b hb
    refine h'.grows.loadsFed h'.extends_ (m.body b) (h.settled b hb) (fun i hi hl => ?_) _
      (h.fed b hb)
    exact (h.renamed.value i).mpr ⟨hl,b,hb,hi⟩
  · intro q hq s hs p hp
    rw [h'.grows.newPhis] at hp
    rw [h'.feeds]
    exact h.fedAll q hq s hs p hp
  · intro p x hx
    rw [h'.feeds] at hx
    obtain ⟨hT,hf⟩ := h.fedBy p x hx
    rw [h'.grows.localOf]
    exact ⟨hT,hf.mono h'.extends_⟩
  · intro p c
    rw [h'.feeds,h'.grows.newPhis]
    exact h.fedOnce p c

end

/-! Erasing. -/

theorem Module.literal_erase (n : Module) (hop : (n.instr i).op ≠ .br) :
    (n.erase i).code.literal = n.code.literal := by
  have hd : (n.dropOperands i).code.literal = n.code.literal := by
    rw [code_dropOperands]
    rfl
  rw [erase_eq n hop,← hd]
  generalize n.dropOperands i = n'
  cases (n.instr i).parent with
  | none => rfl
  | some b =>
    by_cases hi : i ∈ (n'.block b).instrs
    · simp only [code_remove n' hi]
      rfl
    · simp only [remove,if_neg hi]

section

theorem Drafted.eraseBody (h : Drafted m n f D) (hF : Formed m f e)
    (hnew : ∀ b, (D.newPhis b).Nodup) (hb : b ∈ (m.func f).layout) (hi : i ∈ m.body b)
    (hop : (m.instr i).op ≠ .br) :
    Drafted m (n.erase i) f { D with gone := Function.update D.gone i true } := by
  have hin := body_subset m b hi
  exact h.erase hb hi (hF.lt_size hb hin) (hF.parent b hb i hin) hop (h.nodup_line hF hnew hb)
    fun b' hb' hne hi' => hne (h.eq_of_mem_line hF hb' hb hi' (mem_append_right _ hi))

theorem Drafted.foldl_erase (hF : Formed m f e) (is : List InstrId) (h : Drafted m n f D)
    (hnew : ∀ b, (D.newPhis b).Nodup)
    (his : ∀ i ∈ is, ∃ b ∈ (m.func f).layout, i ∈ m.body b ∧ (m.instr i).op ≠ .br) :
    ∃ g : InstrId → Bool, Drafted m (is.foldl Module.erase n) f { D with gone := g } ∧
      (∀ i, g i = true ↔ D.gone i = true ∨ i ∈ is) ∧
        (is.foldl Module.erase n).code.literal = n.code.literal := by
  induction is generalizing n D with
  | nil => exact ⟨D.gone,h,by simp,rfl⟩
  | cons i is ih =>
    rw [foldl_cons]
    obtain ⟨b,hb,hi,hop⟩ := his i mem_cons_self
    have hsz := hF.lt_size hb (body_subset m b hi)
    have h1 := h.eraseBody hF hnew hb hi hop
    obtain ⟨g,hg,hgi,hlit⟩ := ih h1 hnew fun j hj => his j (mem_cons_of_mem _ hj)
    have hop' : (n.instr i).op ≠ .br := by
      rw [show (n.instr i).op = (m.instr i).op from (h.fits.instr_op hsz).1]
      exact hop
    refine ⟨g,hg,fun j => ?_,hlit.trans (literal_erase n hop')⟩
    grind

/-- The users of a local are gone and it is nobody's value. -/
structure Draft.Free (m : Module) (D : Draft) (a : InstrId) : Prop where
  users : ∀ u, .instr a ∈ m.operands u → D.gone u = true
  value : ∀ l, D.value l ≠ some (.instr a)
  feeds : ∀ p, ∀ x ∈ D.feeds p, x.1 ≠ .instr a

theorem Drafted.unused (h : Drafted m n f D) {a : InstrId} (ha : D.Free m a) :
    (n.instr a).uses = [] := by
  have hno : ∀ u, .instr a ∉ n.operands u := by
    intro u hu
    by_cases hsz : u < m.instrTable.size
    · cases hg : D.gone u with
      | true =>
        have ho := congrArg Instr.operands (h.fits.gone u hg).2
        rw [show n.operands u = [] from ho] at hu
        cases hu
      | false =>
        have ho := congrArg Instr.operands (h.fits.kept u hsz hg)
        rw [show n.operands u = (m.operands u).map D.operand from ho,mem_map] at hu
        obtain ⟨v,hv,hva⟩ := hu
        cases v with
        | instr l =>
          cases hl : D.value l with
          | none =>
            simp only [Draft.operand,hl] at hva
            have := ha.users u (hva ▸ hv)
            rw [hg] at this
            cases this
          | some w =>
            simp only [Draft.operand,hl] at hva
            exact ha.value l (hva ▸ hl)
        | _ => simp [Draft.operand] at hva
    · have hsz := Nat.not_lt.mp hsz
      by_cases hp : ∃ b, u ∈ D.newPhis b
      · obtain ⟨b,hb⟩ := hp
        have ho := (h.fits.newPhi b u hb).2.2.2.2
        rw [operands_eq_code,ho,mem_flatMap] at hu
        obtain ⟨x,hx,hxa⟩ := hu
        simp only [mem_cons,reduceCtorEq,not_mem_nil,or_false] at hxa
        exact ha.feeds u x hx hxa.symm
      · have ho := h.fits.beyond u hsz fun b hb => hp ⟨b,hb⟩
        rw [operands_eq_code,ho] at hu
        cases hu
  cases hu : (n.instr a).uses with
  | nil => rfl
  | cons u us =>
    have hmem : u ∈ n.uses (.instr a) := by
      rw [show n.uses (.instr a) = u :: us from hu]
      exact mem_cons_self
    exact absurd ((h.mirror.mem_uses_iff (by simp) u).mp hmem) (hno u)

theorem Drafted.eraseLocals (hF : Formed m f e) (as : List InstrId) (h : Drafted m n f D)
    (hnew : ∀ b, (D.newPhis b).Nodup)
    (has : ∀ a ∈ as, ∃ b ∈ (m.func f).layout, a ∈ m.body b ∧ (m.instr a).op ≠ .br)
    (hfree : ∀ a ∈ as, D.Free m a) :
    Promotion.eraseLocals f n as = (as.foldl Module.erase n,none) := by
  induction as generalizing n D with
  | nil => rfl
  | cons a as ih =>
    obtain ⟨b,hb,ha,hop⟩ := has a mem_cons_self
    have h₁ := h.eraseBody hF hnew hb ha hop
    have hstep : Promotion.eraseLocals f n (a :: as) = Promotion.eraseLocals f (n.erase a) as := by
      rw [Promotion.eraseLocals,h.unused (hfree a mem_cons_self)]
      simp only [length_nil]
    rw [hstep,foldl_cons]
    refine ih h₁ hnew (fun x hx => has x (mem_cons_of_mem _ hx)) fun x hx => ?_
    obtain ⟨h1,h2,h3⟩ := hfree x (mem_cons_of_mem _ hx)
    refine ⟨fun u hu => ?_,h2,h3⟩
    grind

end
end CMinusF
