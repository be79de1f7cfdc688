import CMinusF.Proofs.Promotion.Rename

/-! The walk over the dominator tree: every block that can be reached is renamed once, after the
blocks above it, and feeds the phis of its successors. -/
namespace CMinusF
open CMinusF.Module List
variable {names : Promotion.Names} {D D' : Draft} {m : Module} {f : FuncId} {e b : BlockId}
  {done : InstrId → Prop} {values : Promotion.Values} {q : InstrId} {x : Operand × BlockId}

def Draft.startOf (D : Draft) (V : InstrId → Option Operand) (b : BlockId) (x : InstrId) :
    Option Operand :=
  match (D.newPhis b).find? fun q => D.localOf q = x with
  | some q => some (.instr q)
  | none => V x

/-- The table of phis is that of the draft, and no block has two for one local. -/
structure Named (names : Promotion.Names) (D : Draft) : Prop where
  localOf : ∀ q a, names.localOf.get q = some a ↔ D.localOf q = a ∧ ∃ b, q ∈ D.newPhis b
  distinct : ∀ b, ∀ q ∈ D.newPhis b, ∀ q' ∈ D.newPhis b, D.localOf q = D.localOf q' → q = q'
  nodup : ∀ b, (D.newPhis b).Nodup

theorem Named.grows (h : Named names D) (hg : D.Grows D') : Named names D' := by
  obtain ⟨h1,h2,h3⟩ := h
  refine ⟨?_,?_,?_⟩ <;> rw [hg.newPhis]
  · rw [hg.localOf]
    exact h1
  · rw [hg.localOf]
    exact h2
  · exact h3

theorem Draft.Grows.startOf (h : D.Grows D') : D'.startOf = D.startOf := by
  funext V b x
  rw [Draft.startOf,h.newPhis,h.localOf]
  rfl

section
variable
  {r : Promotion.Renaming}

/-! Phis. -/

variable (h : Renamed m f names done D r)
include h

theorem Renamed.op_newPhi
    (hq : q ∈ D.newPhis b) : (r.module.instr q).op = .phi := (h.drafted.fits.newPhi b q hq).2.1

theorem Renamed.localOf_eq_none (hN : Named names D) {i : InstrId} (hi : i < m.instrTable.size) :
    names.localOf.get i = none := by
  by_contra hne
  obtain ⟨a,ha⟩ := Option.ne_none_iff_exists'.mp hne
  obtain ⟨_,b',hb'⟩ := (hN.localOf i a).mp ha
  exact absurd (h.drafted.fits.newPhi b' i hb').1 (Nat.not_le.mpr hi)

theorem Renamed.foldl_newPhis (hN : Named names D) (values : Promotion.Values) (qs : List InstrId)
    (hqs : qs <:+ D.newPhis b) :
    ∃ values', qs.foldl (Promotion.renameInstr names) (r,values) = (r,values') ∧
      ∀ x, values'.get x = match qs.find? fun q => D.localOf q = x with
        | some q => some (.instr q)
        | none => values.get x := by
  induction qs generalizing values with
  | nil => exact ⟨values,rfl,fun _ => rfl⟩
  | cons q qs ih =>
    have hqm : q ∈ D.newPhis b := hqs.subset mem_cons_self
    have hl : names.localOf.get q = some (D.localOf q) := (hN.localOf q _).mpr ⟨rfl,b,hqm⟩
    obtain ⟨values',hv,hget⟩ := ih (values.set (D.localOf q) (some (.instr q)))
      ((suffix_cons q qs).trans hqs)
    refine ⟨values',?_,fun x => ?_⟩
    · rw [foldl_cons,← hv]
      congr 1
      simp only [Promotion.renameInstr,h.op_newPhi hqm,hl]
    · rw [hget,find?_cons,Table.get_set]
      by_cases hx : D.localOf q = x
      · have hnone : qs.find? (fun q => D.localOf q = x) = none := by
          rw [find?_eq_none]
          intro q' hq' hx'
          have hq'm : q' ∈ D.newPhis b := hqs.subset (mem_cons_of_mem _ hq')
          have := hN.distinct b q hqm q' hq'm (hx.trans (of_decide_eq_true hx').symm)
          have hnd := (hN.nodup b).sublist hqs.sublist
          exact (nodup_cons.mp hnd).1 (this ▸ hq')
        rw [hnone]
        simp [hx]
      · simp [hx]

/-- Old phis stay as they are, new ones are the values of their locals. -/
theorem Renamed.foldl_heads (hN : Named names D)
    (hF : Formed m f e) (values : Promotion.Values) (hb : b ∈ (m.func f).layout) :
    ∃ values', (m.phis b ++ D.newPhis b).foldl (Promotion.renameInstr names) (r,values) =
      (r,values') ∧
      values'.get = D.startOf values.get b := by
  have hold : ∀ is : List InstrId, (∀ i ∈ is, i ∈ m.phis b) →
      is.foldl (Promotion.renameInstr names) (r,values) = (r,values) := by
    intro is
    induction is with
    | nil => exact fun _ => rfl
    | cons i is ih =>
      intro his
      have hi := his i mem_cons_self
      have hsz := hF.lt_size hb (phis_subset m b hi)
      have hnone := h.localOf_eq_none hN hsz
      have hop : (r.module.instr i).op = .phi := (h.op_eq hsz).trans (op_of_mem_phis hi)
      rw [foldl_cons]
      have hstep : Promotion.renameInstr names (r,values) i = (r,values) := by
        simp only [Promotion.renameInstr,hop,hnone]
      simp_all
  obtain ⟨values',hv,hget⟩ := h.foldl_newPhis hN values (D.newPhis b) suffix_rfl
  refine ⟨values',?_,funext hget⟩
  rw [foldl_append,hold _ fun _ hi => hi,hv]

theorem Renamed.instrs_eq (hb : b ∈ (m.func f).layout) :
    (r.module.block b).instrs = m.phis b ++ D.newPhis b ++ m.body b := by
  rw [instrs_eq_code,h.drafted.fits.block b hb]
  exact filter_eq_self.mpr fun i _ => by simp [h.gone]

theorem Renamed.phis_eq (hF : Formed m f e)
    (hb : b ∈ (m.func f).layout) : r.module.phis b = m.phis b ++ D.newPhis b := by
  refine phis_of_instrs (h.instrs_eq hb) ?_ ?_
  · intro i hi
    rcases mem_append.mp hi with hi | hi
    · exact (h.op_eq (hF.lt_size hb (phis_subset m b hi))).trans (op_of_mem_phis hi)
    · exact h.op_newPhi hi
  · intro i hi
    rw [h.op_eq (hF.lt_size hb (body_subset m b hi))]
    exact hF.not_phi b hb i hi

end

/-! Feeding. -/

/-- The phis of a list get their values for the edge from `b`, one for each time they are in it. -/
structure FedFrom (m : Module) (f : FuncId) (names : Promotion.Names) (done : InstrId → Prop)
    (dead : List InstrId) (V : InstrId → Option Operand) (b : BlockId) (ps : List InstrId)
    (D : Draft) (n : Module) (D' : Draft) (n' : Module) : Prop where
  grows : D.Grows D'
  value : D'.value = D.value
  renamed : Renamed m f names done D' ⟨n',dead⟩
  feeds : ∀ p, ∃ vs : List Operand, D'.feeds p = D.feeds p ++ vs.map (·,b) ∧
    vs.length = ps.count p ∧
    ∀ v ∈ vs, Feeds n' (V (D.localOf p)) v
  extends_ : n.Extends n'

section
variable {n n' n'' : Module} {promoted : InstrId → Bool} {dead : List InstrId}
  {V : InstrId → Option Operand} {ps ps' : List InstrId} {D'' : Draft}

theorem FedFrom.none (h : Renamed m f names done D ⟨n,dead⟩) :
    FedFrom m f names done dead V b [] D n D n :=
  ⟨.refl D,rfl,h,fun _ => ⟨[],by simp,rfl,by simp⟩,.refl n⟩

theorem FedFrom.trans (h : FedFrom m f names done dead V b ps D n D' n')
    (h' : FedFrom m f names done dead V b ps' D' n' D'' n'') :
    FedFrom m f names done dead V b (ps ++ ps') D n D'' n'' := by
  refine ⟨h.grows.trans h'.grows,h'.value.trans h.value,h'.renamed,fun p => ?_,
    h.extends_.trans h'.extends_⟩
  obtain ⟨vs,hvs,hlen,hf⟩ := h.feeds p
  obtain ⟨vs',hvs',hlen',hf'⟩ := h'.feeds p
  refine ⟨vs ++ vs',by rw [hvs',hvs,map_append,append_assoc],by simp [hlen,hlen'],fun v hv => ?_⟩
  rcases mem_append.mp hv with hv | hv
  · exact (hf v hv).mono h'.extends_
  · rw [← h.grows.localOf]
    exact hf' v hv

namespace FedFrom
variable (h : FedFrom m f names done dead V b ps D n D' n') (p : InstrId)
include h

theorem kept (hx : x ∈ D.feeds p) : x ∈ D'.feeds p := by
  obtain ⟨vs,hvs,_⟩ := h.feeds p
  rw [hvs]
  exact mem_append_left _ hx

theorem new (hx : x ∈ D'.feeds p) :
    x ∈ D.feeds p ∨ x.2 = b ∧ Feeds n' (V (D.localOf p)) x.1 := by
  obtain ⟨vs,hvs,_,hf⟩ := h.feeds p
  grind

theorem all (hp : p ∈ ps) : ∃ v, (v,b) ∈ D'.feeds p := by
  obtain ⟨vs,hvs,hlen,_⟩ := h.feeds p
  obtain ⟨v,hv⟩ := exists_mem_of_length_pos (hlen ▸ count_pos_iff.mpr hp)
  exact ⟨v,hvs ▸ mem_append_right _ (mem_map.mpr ⟨v,hv,rfl⟩)⟩

theorem count (c : BlockId) : ((D'.feeds p).map (·.2)).count c =
    ((D.feeds p).map (·.2)).count c + if c = b then ps.count p else 0 := by
  obtain ⟨vs,hvs,hlen,_⟩ := h.feeds p
  rw [hvs,map_append,count_append,map_map,← hlen]
  congr 1
  rw [show ((·.2) ∘ fun v => (v,b) : Operand → BlockId) = fun _ => b
    from rfl,map_const',count_replicate]
  by_cases hc : c = b
  · simp [hc]
  · simp [hc,Ne.symm hc]

end FedFrom

end

section
variable {n : Module} {s : BlockId}
  {dead : List InstrId}

theorem Renamed.feedPhi (h : Renamed m f names done D ⟨n,dead⟩) (hN : Named names D)
    (hV : ∀ x v, values.get x = some v → Resolved m f names v) (hq : q ∈ D.newPhis s) :
    ∃ D', FedFrom m f names done dead values.get b [q] D n D'
      (Promotion.feedPhi names values b n q) := by
  have hl : names.localOf.get q = some (D.localOf q) := (hN.localOf q _).mpr ⟨rfl,s,hq⟩
  obtain ⟨h1,h2,h3,h4⟩ := h.current values (D.localOf q) hV
  simp only [Promotion.feedPhi,hl]
  generalize Promotion.current n values (D.localOf q) = c at h1 h2 h3 h4
  have hlit := congrArg Code.literal (code_addIncoming c.1 q c.2 b)
  have hext : c.1.Extends (c.1.addIncoming q c.2 b) := .of_code hlit
  refine ⟨{ D with feeds := Function.update D.feeds q (D.feeds q ++ [(c.2,b)]) },
    ⟨rfl,rfl,rfl,fun _ _ hv => hv⟩,rfl,
    ⟨h1.drafted.addIncoming hq c.2 b,h.gone,h.value,h.resolved,?_,h.dead⟩,?_,h4.trans hext⟩
  · intro p x hx
    by_cases hp : p = q
    · subst hp
      simp only [Function.update_self,mem_append,mem_singleton] at hx
      rcases hx with hx | rfl
      · exact h.fed p x hx
      · exact h3
    · simp only [Function.update_of_ne hp] at hx
      exact h.fed p x hx
  · intro p
    by_cases hp : p = q
    · subst hp
      exact ⟨[c.2],by simp,by simp,fun v hv => mem_singleton.mp hv ▸ h2.mono hext⟩
    · exact ⟨[],by simp [hp],by simp [Ne.symm hp],by simp⟩

theorem Renamed.foldl_feedPhi (hF : Formed m f e) (hs : s ∈ (m.func f).layout)
    (hV : ∀ x v, values.get x = some v → Resolved m f names v) (ps : List InstrId)
    (h : Renamed m f names done D ⟨n,dead⟩) (hN : Named names D)
    (hps : ∀ p ∈ ps, p ∈ m.phis s ∨ p ∈ D.newPhis s) :
    ∃ D', FedFrom m f names done dead values.get b (ps.filter (· ∈ D.newPhis s)) D n D'
      (ps.foldl (Promotion.feedPhi names values b) n) := by
  induction ps generalizing n D with
  | nil => exact ⟨D,.none h⟩
  | cons p ps ih =>
    rw [foldl_cons]
    by_cases hp : p ∈ D.newPhis s
    · obtain ⟨D1,h1⟩ := h.feedPhi (b := b) hN hV hp
      obtain ⟨D2,h2⟩ := ih h1.renamed (hN.grows h1.grows) fun q hq => by
        rw [h1.grows.newPhis]
        exact hps q (mem_cons_of_mem _ hq)
      rw [h1.grows.newPhis] at h2
      rw [filter_cons_of_pos (by simpa using hp)]
      exact ⟨D2,h1.trans h2⟩
    · have hold := (hps p mem_cons_self).resolve_right hp
      have hsz := hF.lt_size hs (phis_subset m s hold)
      have hnone := h.localOf_eq_none hN hsz
      have hstep : Promotion.feedPhi names values b n p = n := by
        simp only [Promotion.feedPhi,hnone]
      grind

theorem Renamed.feedSuccessors (hF : Formed m f e) (hb : b ∈ (m.func f).layout)
    (hV : ∀ x v, values.get x = some v → Resolved m f names v)
    (h : Renamed m f names done D ⟨n,dead⟩) (hN : Named names D) :
    ∃ D', FedFrom m f names done dead values.get b ((m.succs b).flatMap D.newPhis) D n D'
      (Promotion.feedSuccessors names values b n) := by
  have key : ∀ ss : List BlockId, (∀ s ∈ ss, s ∈ (m.func f).layout) →
    ∀ D n, Renamed m f names done D ⟨n,dead⟩ →
      Named names D → ∃ D', FedFrom m f names done dead values.get b (ss.flatMap D.newPhis) D n D'
        (ss.foldl (fun m s => (m.phis s).foldl (Promotion.feedPhi names values b) m) n) := by
    intro ss
    induction ss with
    | nil => exact fun _ D n h _ => ⟨D,.none h⟩
    | cons s ss ih =>
      intro hss D n h hN
      have hs := hss s mem_cons_self
      have hphis : n.phis s = m.phis s ++ D.newPhis s := h.phis_eq hF hs
      -- old phis are numbered before the new ones
      have hnew : (m.phis s ++ D.newPhis s).filter (· ∈ D.newPhis s) = D.newPhis s := by
        rw [filter_append,filter_eq_nil_iff.mpr fun p hp hq => ?_,nil_append,
          filter_eq_self.mpr fun p hp => by simpa using hp]
        exact absurd (hF.lt_size hs (phis_subset m s hp))
          (Nat.not_lt.mpr (h.drafted.fits.newPhi s p (by simpa using hq)).1)
      rw [foldl_cons,hphis]
      obtain ⟨D1,h1⟩ := h.foldl_feedPhi hF hs hV (m.phis s ++ D.newPhis s) hN fun p hp =>
        mem_append.mp hp
      obtain ⟨D2,h2⟩ := ih (fun s' hs' => hss s' (mem_cons_of_mem _ hs')) D1 _ h1.renamed
        (hN.grows h1.grows)
      rw [hnew] at h1
      rw [h1.grows.newPhis] at h2
      exact ⟨D2,h1.trans h2⟩
  have hsuccs := congrArg Block.succs (h.drafted.fits.block b hb)
  rw [Promotion.feedSuccessors,show n.succs b = m.succs b from hsuccs]
  exact key _ (fun s hs => hF.closed b hb s hs) D n h hN

end

/-! Blocks. -/

/-- What the locals are worth before a block: nothing yet at the entry, else what they are worth
above it. -/
def worthAbove (m : Module) (f : FuncId) (e : BlockId) (finish : BlockId → InstrId → Option Operand)
    (b : BlockId) :
    InstrId → Option Operand :=
  if b = e then fun _ => none else finish (((m.dominators f).idom.get b).getD b)

structure Walked (m : Module) (f : FuncId) (e : BlockId) (names : Promotion.Names)
    (T : BlockId → Prop) (D : Draft) (start finish : BlockId → InstrId → Option Operand)
    (r : Promotion.Renaming) : Prop where
  renamed : Renamed m f names (fun i => ∃ b, T b ∧ i ∈ m.body b) D r
  named : Named names D
  reaches : ∀ b, T b → m.Reaches e b
  up : ∀ b, T b → b ≠ e → T (((m.dominators f).idom.get b).getD b)
  starts : ∀ b, T b → start b = D.startOf (worthAbove m f e finish b) b
  ends : ∀ b, T b → finish b = (D.base names.tracked.get).through m (start b) (m.body b)
  fed : ∀ b, T b → LoadsFed m r.module (D.base names.tracked.get) (start b) (m.body b)
  settled : ∀ b, T b → ∀ i ∈ m.body b, Settled m names.tracked.get
    (fun l => (D.value l).isSome = true) i
  fedAll : ∀ q, T q → ∀ s ∈ m.succs q, ∀ p ∈ D.newPhis s, ∃ v, (v,q) ∈ D.feeds p
  fedBy : ∀ p, ∀ x ∈ D.feeds p, T x.2 ∧ Feeds r.module (finish x.2 (D.localOf p)) x.1
  /-- A phi has no more values from a block than that block has edges to it. -/
  fedOnce : ∀ p c, ((D.feeds p).map (·.2)).count c ≤ ((m.succs c).flatMap D.newPhis).count p

section
variable {T : BlockId → Prop}
  {start finish : BlockId → InstrId → Option Operand} {r : Promotion.Renaming}

theorem Walked.settled_of_not_visited (hF : Formed m f e) (hb : m.Reaches e b)
    (habove : ∀ c, Dominance.Above (m.dominators f).idom c b → c ≠ b → T c) (pre : List InstrId)
    (i : InstrId) (post : List InstrId) (hbody : m.body b = pre ++ i :: post) :
    Settled m names.tracked.get (fun l => (∃ c, T c ∧ l ∈ m.body c) ∨ l ∈ pre) i := by
  intro a l ha hl hload
  obtain ⟨x,hx⟩ := Option.isSome_iff_exists.mp hload
  have hop : (m.instr l).op ≠ .phi := by
    rw [((Plan.loadOf?_eq_some ..).mp hx).1]
    simp
  have hbl := hF.mem_layout hb
  have hi : i ∈ m.body b := hbody ▸ by simp
  have hav := hF.dominated b hb (m.phis b ++ pre) i post
    (by rw [instrs_eq_phis_append,hbody,append_assoc])
    (fun hp => hF.not_phi b hbl i hi (op_of_mem_phis hp)) l (mem_operands_of_operand hl (by simp))
  rcases hav with hl | ⟨c,hc,hdom,hl⟩
  · rcases mem_append.mp hl with hl | hl
    · exact absurd (op_of_mem_phis hl) hop
    · exact .inr hl
  · refine .inl ⟨c,habove c ?_ hc,mem_body_of_not_phi hl hop⟩
    exact hF.flowGraph.isDominatorTree.dominators b c hb hdom

theorem Resolved.newPhi (h : Renamed m f names done D r) (hN : Named names D)
    (hP : Promotable m f names.tracked.get) (hF : Formed m f e) (hq : q ∈ D.newPhis b) :
    Resolved m f names (.instr q) := by
  refine ⟨.inl ⟨q,rfl⟩,fun x hx => ?_⟩
  obtain rfl := Operand.instr.inj hx
  have hsz := (h.drafted.fits.newPhi b q hq).1
  refine ⟨?_,?_,fun hlt => absurd hlt (Nat.not_lt.mpr hsz),fun _ => ?_⟩
  · by_contra hp
    obtain ⟨c,hc,ha⟩ := (hP.alloca q (by simpa using hp)).1
    exact absurd (hF.lt_size hc (body_subset m c ha)) (Nat.not_lt.mpr hsz)
  · rw [Plan.loadOf?,instr_of_size_le hsz]
    rfl
  · rw [(hN.localOf q _).mpr ⟨rfl,b,hq⟩]
    rfl

/-- A visit renames the block and feeds its successors; `values` holds before it. -/
theorem Walked.visit (h : Walked m f e names T D start finish r) (hF : Formed m f e)
    (hP : Promotable m f names.tracked.get) (hb : m.Reaches e b) (hnew : ¬T b)
    (habove : ∀ c, Dominance.Above (m.dominators f).idom c b → c ≠ b → T c)
    (hV : ∀ x v, values.get x = some v → Resolved m f names v)
    (hval : values.get = worthAbove m f e finish b) {s : Promotion.Renaming × Promotion.Values}
    (hs : (r.module.block b).instrs.foldl (Promotion.renameInstr names) (r,values) = s) :
    ∃ D' start' finish', D.Grows D' ∧ Walked m f e names (fun x => T x ∨ x = b) D' start' finish'
        ⟨Promotion.feedSuccessors names s.2 b s.1.module,s.1.dead⟩ ∧
      s.2.get = finish' b ∧ (∀ x v, s.2.get x = some v → Resolved m f names v) ∧
      ∀ c, T c → finish' c = finish c := by
  have hbl := hF.mem_layout hb
  have hbe : b ≠ e → T (((m.dominators f).idom.get b).getD b) := by
    intro hne
    have ht := hF.flowGraph.isDominatorTree
    obtain ⟨c,hc⟩ := Option.isSome_iff_exists.mp ((ht.isSome_iff b).mpr hb)
    rw [hc]
    refine habove c (.up hc .refl) ?_
    rintro rfl
    exact Nat.lt_irrefl _ (ht.tree.rank c c hc hne)
  rw [h.renamed.instrs_eq hbl,foldl_append] at hs
  obtain ⟨values0,hheads,hget0⟩ := h.renamed.foldl_heads h.named hF values hbl
  have hV0 : ∀ x v, values0.get x = some v → Resolved m f names v := by
    intro x v hx
    rw [hget0,Draft.startOf] at hx
    split at hx
    · rename_i q hq
      rw [← Option.some.inj hx]
      exact .newPhi h.renamed h.named hP hF (mem_of_find?_eq_some hq)
    · exact hV x v hx
  have hset : ∀ pre i post, m.body b = pre ++ i :: post → Settled m names.tracked.get _ i :=
    Walked.settled_of_not_visited hF hb habove
  have hfresh : ∀ i ∈ m.body b, ¬∃ c, T c ∧ i ∈ m.body c := by
    rintro i hi ⟨c,hc,hic⟩
    have h1 := hF.parent b hbl i (body_subset m b hi)
    have h2 := hF.parent c (hF.mem_layout (h.reaches c hc)) i (body_subset m c hic)
    rw [h1,Option.some.injEq] at h2
    exact hnew (h2 ▸ hc)
  have hnd : (m.body b).Nodup := by
    have h1 : ((m.block b).instrs).Nodup := (nodup_flatMap.mp hF.nodup).1 b hbl
    exact h1.sublist (drop_sublist _ _)
  obtain ⟨D1,p1⟩ := h.renamed.foldl_renameInstr values0 hP (m.body b)
    (fun i hi => hF.lt_size hbl (body_subset m b hi)) (hF.not_phi b hbl) hnd hfresh hV0 hset
    fun i hi => ⟨hF.mem_instrs hb (body_subset m b hi),fun j hj =>
      ⟨hF.valued i (hF.mem_instrs hb (body_subset m b hi)) j hj,
        hF.home i (hF.mem_instrs hb (body_subset m b hi)) j hj⟩⟩
  rw [hheads] at hs
  rw [hs] at p1
  obtain ⟨D2,p2⟩ := Renamed.feedSuccessors (b := b) hF hbl p1.resolved p1.renamed
    (h.named.grows p1.grows)
  have hg := p1.grows.trans p2.grows
  have hx := p1.extends_.trans p2.extends_
  have hdone : (fun i => (∃ c, T c ∧ i ∈ m.body c) ∨ i ∈ m.body b) = fun i => ∃ c, (T c ∨ c = b) ∧
      i ∈ m.body c := by
    simp
  have hR := p2.renamed
  rw [hdone] at hR
  have hne : ∀ c, T c → c ≠ b := by
    rintro c hc rfl
    exact hnew hc
  have hw : ∀ c, (c ≠ e → T (((m.dominators f).idom.get c).getD c)) →
      worthAbove m f e (Function.update finish b s.2.get) c = worthAbove m f e finish c := by
    intro c hc
    unfold worthAbove
    split
    · rfl
    · rename_i hce
      exact Function.update_of_ne (hne _ (hc hce)) _ _
  have hsetb : ∀ i ∈ m.body b, Settled m names.tracked.get
      (fun l => (D1.value l).isSome = true) i := by
    intro i hi
    obtain ⟨pre,post,hsplit⟩ := append_of_mem hi
    refine p1.renamed.settled fun a l ha hl hload => ?_
    refine (hset pre i post hsplit a l ha hl hload).imp_right fun hl => ?_
    rw [hsplit]
    exact mem_append_left _ hl
  refine ⟨D2,Function.update start b (D.startOf values.get b),Function.update finish b s.2.get,hg,
    ⟨hR,h.named.grows hg,?_,?_,?_,?_,?_,?_,?_,?_,?_⟩,(Function.update_self b s.2.get finish).symm,
    p1.resolved,fun c hc => Function.update_of_ne (hne c hc) _ _⟩
  · rintro c (hc | rfl)
    · exact h.reaches c hc
    · exact hb
  · rintro c (hc | rfl) hce
    · exact .inl (h.up c hc hce)
    · exact .inl (hbe hce)
  · rintro c (hc | rfl)
    · rw [Function.update_of_ne (hne c hc),h.starts c hc,hg.startOf,hw c fun hce => h.up c hc hce]
    · rw [Function.update_self,hval,hg.startOf,hw c hbe]
  · rintro c (hc | rfl)
    · rw [Function.update_of_ne (hne c hc),Function.update_of_ne (hne c hc),h.ends c hc,
        hg.through_eq (m.body c) (h.settled c hc)]
    · rw [Function.update_self,Function.update_self,p1.after,hget0,
        p2.grows.through_eq (m.body c) hsetb]
  · rintro c (hc | rfl)
    · rw [Function.update_of_ne (hne c hc)]
      refine hg.loadsFed hx (m.body c) (h.settled c hc) (fun i hi hl => ?_) _ (h.fed c hc)
      exact (h.renamed.value i).mpr ⟨hl,c,hc,hi⟩
    · rw [Function.update_self,← hget0]
      refine p2.grows.loadsFed p2.extends_ (m.body c) hsetb (fun i hi hl => ?_) _ p1.fed
      exact (p1.renamed.value i).mpr ⟨hl,Or.inr hi⟩
  · rintro c (hc | rfl) i hi a l ha hl hload
    · obtain ⟨v,hv⟩ := Option.isSome_iff_exists.mp (h.settled c hc i hi a l ha hl hload)
      rw [hg.value l v hv]
      rfl
    · obtain ⟨v,hv⟩ := Option.isSome_iff_exists.mp (hsetb i hi a l ha hl hload)
      rw [p2.grows.value l v hv]
      rfl
  · rintro q (hq | rfl) t ht p hp
    · rw [hg.newPhis] at hp
      obtain ⟨v,hv⟩ := h.fedAll q hq t ht p hp
      exact ⟨v,p2.kept p (p1.feeds ▸ hv)⟩
    · rw [p2.grows.newPhis] at hp
      exact p2.all p (mem_flatMap.mpr ⟨t,ht,hp⟩)
  · intro p x hx'
    rcases p2.new p hx' with hx' | ⟨hxb,hf⟩
    · rw [p1.feeds] at hx'
      obtain ⟨hT,hf⟩ := h.fedBy p x hx'
      refine ⟨Or.inl hT,?_⟩
      rw [Function.update_of_ne (hne _ hT),hg.localOf]
      exact hf.mono hx
    · refine ⟨Or.inr hxb,?_⟩
      rw [hxb,Function.update_self,p2.grows.localOf]
      exact hf
  · intro p c
    rw [p2.count p c,p1.feeds,p1.grows.newPhis,hg.newPhis]
    split
    · rename_i hcb
      -- nothing came from `b` before
      have hzero : ((D.feeds p).map (·.2)).count c = 0 := by
        rw [count_eq_zero,mem_map]
        rintro ⟨x,hx,hxc⟩
        exact hnew (hcb ▸ hxc ▸ (h.fedBy p x hx).1)
      exact Nat.le_of_eq (by rw [hzero,hcb,Nat.zero_add])
    · exact h.fedOnce p c

open Dominance in
theorem Walked.renameBlock (hF : Formed m f e) (hP : Promotable m f names.tracked.get) (n : Nat)
    (values : Promotion.Values) (h : Walked m f e names T D start finish r) (hb : m.Reaches e b)
    (hbelow : ∀ x, Above (m.dominators f).idom b x → ¬T x)
    (habove : ∀ c, Above (m.dominators f).idom c b → c ≠ b → T c)
    (hV : ∀ x v, values.get x = some v → Resolved m f names v)
    (hval : values.get = worthAbove m f e finish b)
    (hn : (postorderNumbers (m.reversePostorder e)).get b < n) :
    ∃ D' start' finish', D.Grows D' ∧
      Walked m f e names (fun x => T x ∨ Above (m.dominators f).idom b x) D' start' finish'
        (Promotion.renameBlock names (m.dominators f) n values r b) ∧ ∀ c, T c →
          finish' c = finish c := by
  induction n generalizing b T D start finish r values with
  | zero => exact absurd hn (Nat.not_lt_zero _)
  | succ n ih =>
    have hG := hF.flowGraph
    rw [Promotion.renameBlock]
    generalize hs : (r.module.block b).instrs.foldl (Promotion.renameInstr names) (r,values) = s
    obtain ⟨D₁,start₁,finish₁,hg₁,h₁,hs₁,hV₁,hsame₁⟩ :=
      h.visit hF hP hb (hbelow b .refl) habove hV hval hs
    obtain ⟨r₁,values₁⟩ := s
    simp only at h₁ hs₁ hV₁ ⊢
    -- the children in turn, each with the values at the end of `b`
    have key : ∀ cs : List BlockId, (∀ c ∈ cs, c ∈ (m.dominators f).children.get b) → cs.Nodup →
        ∀ T D start finish r, Walked m f e names T D start finish r → values₁.get = finish b →
        (∀ c ∈ cs, ∀ x, Above (m.dominators f).idom c x → ¬T x) →
          (∀ c, Above (m.dominators f).idom c b → T c) →
        ∃ D' start' finish', D.Grows D' ∧
          Walked m f e names (fun x => T x ∨ ∃ c ∈ cs, Above (m.dominators f).idom c x) D'
            start' finish'
          (cs.foldl (Promotion.renameBlock names (m.dominators f) n values₁) r) ∧ ∀ c, T c →
            finish' c = finish c := by
      intro cs
      induction cs with
      | nil =>
        intro _ _ T D start finish r h _ _ _
        refine ⟨D,start,finish,.refl D,?_,fun _ _ => rfl⟩
        simpa using h
      | cons c cs ihc =>
        intro hcs hnd T D start finish r h hval hbelow habove
        have hc := hcs c mem_cons_self
        obtain ⟨hce,hcb⟩ := hG.mem_children_iff.mp hc
        have hreach : m.Reaches e c := (hG.isDominatorTree.isSome_iff c).mp (by simp [hcb])
        have hval₁ : values₁.get = worthAbove m f e finish c := by
          rw [worthAbove,if_neg hce,hcb]
          exact hval
        have habove₁ : ∀ x, Above (m.dominators f).idom x c → x ≠ c → T x := by
          intro x hx hxc
          obtain ⟨y,hy,hxy⟩ := hx.of_ne hxc
          rw [hcb,Option.some.injEq] at hy
          exact habove x (hy ▸ hxy)
        have hlt := hG.child_lt hc
        obtain ⟨D₂,start₂,finish₂,hg₂,h₂,hsame₂⟩ :=
          ih values₁ h hreach (hbelow c mem_cons_self) habove₁ hV₁ hval₁ (by omega)
        have hdisj : ∀ c' ∈ cs, ∀ x, Above (m.dominators f).idom c' x →
            ¬(T x ∨ Above (m.dominators f).idom c x) := by
          rintro c' hc' x hx (hT | hcx)
          · exact hbelow c' (mem_cons_of_mem _ hc') x hx hT
          · refine hG.disjoint_children hc (hcs c' (mem_cons_of_mem _ hc')) ?_ hcx hx
            rintro rfl
            exact (nodup_cons.mp hnd).1 hc'
        obtain ⟨D₃,start₃,finish₃,hg₃,h₃,hsame₃⟩ := ihc (fun x hx => hcs x (mem_cons_of_mem _ hx))
          (nodup_cons.mp hnd).2 _ D₂ start₂ finish₂ _ h₂
            (by rw [hval,hsame₂ b (habove b .refl)]) hdisj
          (fun x hx => Or.inl (habove x hx))
        refine ⟨D₃,start₃,finish₃,hg₂.trans hg₃,?_,
          fun x hx => (hsame₃ x (Or.inl hx)).trans (hsame₂ x hx)⟩
        have hT : (fun x => (T x ∨ Above (m.dominators f).idom c x) ∨
          ∃ c ∈ cs, Above (m.dominators f).idom c x) =
            fun x => T x ∨ ∃ c' ∈ c :: cs, Above (m.dominators f).idom c' x := by
          funext x
          simp only [mem_cons,exists_eq_or_imp,or_assoc]
        exact hT ▸ h₃
    have hdisj : ∀ c ∈ (m.dominators f).children.get b, ∀ x, Above (m.dominators f).idom c x →
        ¬(T x ∨ x = b) := by
      rintro c hc x hx (hT | rfl)
      · exact hbelow x (.trans (.up (hG.mem_children_iff.mp hc).2 .refl) hx) hT
      · have h1 := hG.isDominatorTree.tree.rank_le hx
        have h2 := hG.child_lt hc
        omega
    obtain ⟨D₂,start₂,finish₂,hg₂,h₂,hsame₂⟩ :=
      key _ (fun _ hc => hc) hG.children_nodup _ D₁ start₁ finish₁ _ h₁ hs₁ hdisj (by
      intro c hc
      by_cases hcb : c = b
      · exact Or.inr hcb
      · exact Or.inl (habove c hc hcb))
    refine ⟨D₂,start₂,finish₂,hg₁.trans hg₂,?_,
      fun c hc => (hsame₂ c (Or.inl hc)).trans (hsame₁ c hc)⟩
    have hT : (fun x => (T x ∨ x = b) ∨ ∃ c ∈ (m.dominators f).children.get b,
      Above (m.dominators f).idom c x) =
        fun x => T x ∨ Above (m.dominators f).idom b x := by
      funext x
      rw [eq_iff_iff,or_assoc]
      refine or_congr_right ⟨?_,fun hx => ?_⟩
      · rintro (rfl | ⟨c,hc,hx⟩)
        · exact .refl
        · exact .trans (.up (hG.mem_children_iff.mp hc).2 .refl) hx
      · by_cases hxb : b = x
        · exact Or.inl hxb.symm
        · exact Or.inr (hG.exists_child hx hxb)
    exact hT ▸ h₂

end
end CMinusF
