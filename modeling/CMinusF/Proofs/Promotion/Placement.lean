import Mathlib.Order.Bounds.Basic
import CMinusF.Proofs.Flow.Dominators
import CMinusF.Proofs.Promotion.Draft

/-! Where phis are made: in the least set of blocks that is closed under frontiers and holds the
frontiers of all blocks with a store. -/
namespace CMinusF
open CMinusF.Module List

namespace Promotion
variable {s : Spread} {b c e : BlockId} {bs : List BlockId} {m : Module} {f : FuncId} {i : InstrId}
variable {d : Dominance} {L start : List BlockId} {S : Set BlockId}

/-- Blocks are told apart by their numbers, and frontiers are made of such blocks. -/
structure Numbered (d : Dominance) (L : List BlockId) : Prop where
  injective : ∀ b ∈ L, ∀ c ∈ L, b.number = c.number → b = c
  frontier : ∀ c, ∀ b ∈ d.frontier c, b ∈ L
  reachable : ∀ b, d.reachable b = true → b ∈ L
  bound : ∀ b ∈ L, b.number < d.byNumber.size

theorem any_number_iff (hd : Numbered d L) (hbs : bs ⊆ L) (hb : b ∈ L) :
    bs.any (·.number = b.number) = true ↔ b ∈ bs := by
  rw [any_eq_true]
  constructor
  · rintro ⟨c,hc,hn⟩
    exact hd.injective c (hbs hc) b hb (of_decide_eq_true hn) ▸ hc
  · exact fun hb => ⟨b,hb,by simp⟩

theorem mem_enqueue (hd : Numbered d L) (hbs : bs ⊆ L) (hb : b ∈ L) :
    c ∈ enqueue bs b ↔ c ∈ bs ∨ c = b := by
  unfold enqueue
  split
  · rename_i h
    have := (any_number_iff hd hbs hb).mp h
    grind
  · simp

/-- What holds at any time of the search, which stays inside `S`. -/
structure Spread.Sound (d : Dominance) (L start : List BlockId) (S : Set BlockId)
    (s : Spread) : Prop where
  inside : ∀ b ∈ s.joins, b ∈ S
  queue_mem : s.queue ⊆ L
  queue : ∀ b ∈ s.queue, b ∈ start ∨ b ∈ S
  nodup : s.joins.Nodup
  starts : start ⊆ s.queue
  joins : s.joins ⊆ s.queue
  length : s.queue.length ≤ start.length + s.joins.length

structure Spread.Later (s s' : Spread) : Prop where
  joins : s.joins ⊆ s'.joins
  queue : s.queue <+: s'.queue

theorem Spread.Later.trans {s' s'' : Spread} (h : Later s s') (h' : Later s' s'') : Later s s'' :=
  ⟨List.Subset.trans h.joins h'.joins,h.queue.trans h'.queue⟩

theorem enqueue_length (bs : List BlockId) (b : BlockId) :
    (enqueue bs b).length ≤ bs.length + 1 := by
  unfold enqueue
  split <;> simp

theorem prefix_enqueue (bs : List BlockId) (b : BlockId) : bs <+: enqueue bs b := by
  unfold enqueue
  split
  · exact prefix_rfl
  · exact prefix_append _ _

theorem Spread.Sound.join (hd : Numbered d L) (h : s.Sound d L start S) (hb : b ∈ d.frontier c)
    (hS : b ∈ S) :
    (s.join b).Sound d L start S ∧ Later s (s.join b) ∧ b ∈ (s.join b).joins := by
  have hjl : s.joins ⊆ L := List.Subset.trans h.joins h.queue_mem
  have hbl := hd.frontier c b hb
  unfold Spread.join
  split
  · rename_i hany
    exact ⟨h,⟨List.Subset.refl _,prefix_rfl⟩,(any_number_iff hd hjl hbl).mp hany⟩
  · rename_i hany
    have hnot : b ∉ s.joins := fun hm => hany ((any_number_iff hd hjl hbl).mpr hm)
    refine ⟨⟨?_,?_,?_,?_,?_,?_,?_⟩,⟨subset_append_left _ _,prefix_enqueue _ _⟩,by simp⟩
    · intro x hx
      rcases mem_append.mp hx with hx | hx
      · exact h.inside x hx
      · exact mem_singleton.mp hx ▸ hS
    · intro x hx
      rcases (mem_enqueue hd h.queue_mem hbl).mp hx with hx | rfl
      · exact h.queue_mem hx
      · exact hbl
    · intro x hx
      rcases (mem_enqueue hd h.queue_mem hbl).mp hx with hx | rfl
      · exact h.queue x hx
      · exact .inr hS
    · exact nodup_append.mpr ⟨h.nodup,nodup_singleton b,by
        intro x hx y hy hxy
        exact hnot (mem_singleton.mp hy ▸ hxy ▸ hx)⟩
    · exact fun x hx => (mem_enqueue hd h.queue_mem hbl).mpr (.inl (h.starts hx))
    · intro x hx
      refine (mem_enqueue hd h.queue_mem hbl).mpr ?_
      rcases mem_append.mp hx with hx | hx
      · exact .inl (h.joins hx)
      · exact .inr (mem_singleton.mp hx)
    · have := enqueue_length s.queue b
      have := h.length
      simp only [length_append,length_singleton]
      omega

theorem Spread.Sound.foldl_join (hd : Numbered d L) (bs : List BlockId)
    (hbs : ∀ b ∈ bs, b ∈ d.frontier c ∧ b ∈ S) (h : s.Sound d L start S) :
    (bs.foldl Spread.join s).Sound d L start S ∧ Later s (bs.foldl Spread.join s) ∧
    bs ⊆ (bs.foldl Spread.join s).joins := by
  induction bs generalizing s with
  | nil => exact ⟨h,⟨List.Subset.refl _,prefix_rfl⟩,nil_subset _⟩
  | cons b bs ih =>
    obtain ⟨h1,hl,hb⟩ := h.join hd (hbs b (by simp)).1 (hbs b (by simp)).2
    obtain ⟨h2,hl',hsub⟩ := ih (fun x hx => hbs x (mem_cons_of_mem _ hx)) h1
    exact ⟨h2,hl.trans hl',cons_subset.mpr ⟨hl'.joins hb,hsub⟩⟩

/-- The frontiers of the blocks of the queue before position `i` have been looked at. -/
def Spread.LookedAt (d : Dominance) (i : Nat) (s : Spread) : Prop :=
  ∀ j < i, ∀ b, s.queue[j]? = some b → d.frontier b ⊆ s.joins

theorem Spread.Sound.joins_length (hd : Numbered d L) (h : s.Sound d L start S) :
    s.joins.length ≤ d.byNumber.size := by
  have hl : s.joins ⊆ L := List.Subset.trans h.joins h.queue_mem
  have hnd : (s.joins.map BlockId.number).Nodup :=
    (nodup_map_iff_inj_on h.nodup).mpr fun b hb c hc => hd.injective b (hl hb) c (hl hc)
  have hsub : s.joins.map BlockId.number ⊆ range d.byNumber.size := by
    intro n hn
    obtain ⟨b,hb,rfl⟩ := mem_map.mp hn
    exact mem_range.mpr (hd.bound b (hl hb))
  have := (hnd.subperm hsub).length_le
  rwa [length_map,length_range] at this

theorem Spread.Sound.run (hd : Numbered d L)
    (hS : ∀ b, b ∈ start ∨ b ∈ S → ∀ c ∈ d.frontier b, c ∈ S) (n i : Nat) (h : s.Sound d L start S)
    (hi : s.LookedAt d i) (hil : i ≤ s.queue.length)
    (hn : start.length + d.byNumber.size + 1 ≤ n + i) : (Spread.run d n i s).Sound d L start S ∧
      ∀ b ∈ (Spread.run d n i s).queue, d.frontier b ⊆ (Spread.run d n i s).joins := by
  induction n generalizing i s with
  | zero =>
    have := h.length
    have := h.joins_length hd
    omega
  | succ n ih =>
    rw [Spread.run]
    cases hq : s.queue[i]? with
    | none =>
      refine ⟨h,fun b hb => ?_⟩
      obtain ⟨j,hj⟩ := mem_iff_getElem?.mp hb
      have hji := Nat.lt_of_lt_of_le (List.getElem?_eq_some_iff.mp hj).1
        (List.getElem?_eq_none_iff.mp hq)
      exact hi j hji b hj
    | some b =>
      have hib := (List.getElem?_eq_some_iff.mp hq).1
      obtain ⟨h1,hl,hsub⟩ := h.foldl_join hd (d.frontier b) fun c hc =>
        ⟨hc,hS b (h.queue b (mem_of_getElem? hq)) c hc⟩
      have hlen := hl.queue.length_le
      refine ih (i + 1) h1 ?_ (by omega) (by omega)
      intro j hj c hc
      have hjq : s.queue[j]? = some c := by
        obtain ⟨t,ht⟩ := hl.queue
        rwa [← ht,List.getElem?_append_left (by omega)] at hc
      rcases Nat.lt_or_eq_of_le (Nat.lt_succ_iff.mp hj) with hj | rfl
      · exact List.Subset.trans (hi j hj c hjq) hl.joins
      · rw [hq,Option.some.injEq] at hjq
        exact hjq ▸ hsub

/-! The blocks with a store. -/

theorem storeBlocks_eq (m : Module) (d : Dominance) (a : InstrId) : storeBlocks m d a =
    ((m.instr a).uses.filterMap fun u =>
      if (m.instr u).op = .store then (m.instr u).parent.filter d.reachable else none).foldl
        enqueue [] := by
  rw [storeBlocks,foldl_filterMap]
  congr 1
  funext bs u
  cases hp : (m.instr u).parent with
  | none => split <;> simp_all
  | some b => grind

theorem mem_foldl_enqueue (hd : Numbered d L) (bs qs : List BlockId) (hbs : bs ⊆ L) (hqs : qs ⊆ L) :
    bs.foldl enqueue qs ⊆ L ∧ ∀ b, b ∈ bs.foldl enqueue qs ↔ b ∈ qs ∨ b ∈ bs := by
  induction bs generalizing qs with
  | nil => exact ⟨hqs,by simp⟩
  | cons x bs ih =>
    have hx := hbs mem_cons_self
    have hq : enqueue qs x ⊆ L := by
      intro c hc
      rcases (mem_enqueue hd hqs hx).mp hc with hc | rfl
      · exact hqs hc
      · exact hx
    obtain ⟨h1,h2⟩ := ih (enqueue qs x) (fun c hc => hbs (mem_cons_of_mem _ hc)) hq
    refine ⟨h1,fun b => ?_⟩
    rw [foldl_cons,h2,mem_enqueue hd hqs hx,mem_cons,or_assoc]

theorem mem_storeBlocks (hd : Numbered d L) (m : Module) (a : InstrId) :
    storeBlocks m d a ⊆ L ∧ ∀ b,
    b ∈ storeBlocks m d a ↔ d.reachable b = true ∧
      ∃ u ∈ (m.instr a).uses, (m.instr u).op = .store ∧ (m.instr u).parent = some b := by
  have hmem : ∀ b, (b ∈ (m.instr a).uses.filterMap fun u =>
      if (m.instr u).op = .store then (m.instr u).parent.filter d.reachable else none) ↔
      d.reachable b = true ∧ ∃ u ∈ (m.instr a).uses, (m.instr u).op = .store ∧
        (m.instr u).parent = some b := by
    intro b
    rw [mem_filterMap]
    constructor
    · rintro ⟨u,hu,h⟩
      split at h
      · obtain ⟨hp,hr⟩ := Option.filter_eq_some_iff.mp h
        exact ⟨hr,u,hu,by assumption,hp⟩
      · cases h
    · simp_all
  obtain ⟨h1,h2⟩ := mem_foldl_enqueue hd _ [] (fun b hb => hd.reachable b ((hmem b).mp hb).1)
    (nil_subset L)
  rw [storeBlocks_eq]
  refine ⟨h1,fun b => ?_⟩
  rw [h2,hmem]
  simp

/-- The blocks that get a phi for a local are the least set with the frontiers of the stores and its
own. -/
theorem joinBlocks_spec (hd : Numbered d L) (m : Module) (a : InstrId) : (joinBlocks m d a).Nodup ∧
    IsLeast {S : Set BlockId | ∀ b, b ∈ storeBlocks m d a ∨ b ∈ S → ∀ c ∈ d.frontier b, c ∈ S}
      {b | b ∈ joinBlocks m d a} := by
  have key : ∀ S : Set BlockId, (∀ b, b ∈ storeBlocks m d a ∨ b ∈ S → ∀ c ∈ d.frontier b, c ∈ S) →
    _ := fun S hS =>
    Spread.Sound.run hd hS ((storeBlocks m d a).length + d.byNumber.size + 1) 0
      (s := ⟨[],storeBlocks m d a⟩) ⟨by simp,(mem_storeBlocks hd m a).1,fun _ => .inl,by simp,
        List.Subset.refl _,by simp,by simp⟩
      (fun j hj => absurd hj (Nat.not_lt_zero j)) (Nat.zero_le _) (Nat.le_refl _)
  obtain ⟨h,hall⟩ := key Set.univ (fun _ _ _ _ => trivial)
  refine ⟨h.nodup,?_,fun S hS b hb => (key S hS).1.inside b hb⟩
  rintro b (hb | hb)
  · exact hall b (h.starts hb)
  · exact hall b (h.joins hb)

end Promotion

/-! A function's blocks as the dominators see them. -/

theorem Table.lt_size_of_get_ne {α : Type} [Inhabited α] {t : Table α} {i : Nat}
    (h : t.get i ≠ default) : i < t.size := by
  by_contra hi
  exact h (Table.get_of_size_le t (Nat.not_lt.mp hi))

theorem FlowGraph.numbered (h : FlowGraph m f e) :
    Promotion.Numbered (m.dominators f) (m.func f).layout where
  injective _ hb _ hc := h.eq_of_number hb hc
  frontier _ _ hb := (h.of_mem_frontier hb).1
  reachable _ hb := h.mem_layout (h.reachable_iff.mp hb)
  bound b hb := Table.lt_size_of_get_ne (by
    rw [(h.byNumber_iff b.number).mpr ⟨hb,rfl⟩]
    exact Option.some_ne_none b)

/-- What the making of phis takes for granted: edges, and instructions that know their block and
come after the phis. -/
structure Shaped (m : Module) (f : FuncId) (e : BlockId) : Prop extends FlowGraph m f e where
  parent : ∀ b ∈ (m.func f).layout, ∀ i ∈ (m.block b).instrs, (m.instr i).parent = some b
  not_phi : ∀ b ∈ (m.func f).layout, ∀ i ∈ m.body b, (m.instr i).op ≠ .phi

theorem Shaped.lt_size (h : Shaped m f e) (hb : b ∈ (m.func f).layout)
    (hi : i ∈ (m.block b).instrs) : i < m.instrTable.size := by
  refine lt_size_of_ne fun hd => ?_
  have := h.parent b hb i hi
  rw [hd] at this
  cases this

namespace Formed

theorem instrs_ne_nil (h : Formed m f e) (hb : b ∈ (m.func f).layout) :
    (m.block b).instrs ≠ [] := by
  obtain ⟨is,t,ht,_⟩ := h.terminated b hb
  rw [instrs_eq_phis_append,ht]
  simp

theorem flowGraph (h : Formed m f e) : FlowGraph m f e where
  entry := h.entry
  owned := h.owned
  nodup := h.layout_nodup
  sized b hb := by
    refine Table.lt_size_of_get_ne fun hd => h.instrs_ne_nil hb ?_
    rw [block,h.owned b hb,hd]
    rfl
  closed := h.closed
  mirrored := h.mirrored

theorem shaped (h : Formed m f e) : Shaped m f e := ⟨h.flowGraph,h.parent,h.not_phi⟩

theorem lt_size (h : Formed m f e) (hb : b ∈ (m.func f).layout) (hi : i ∈ (m.block b).instrs) :
    i < m.instrTable.size := h.shaped.lt_size hb hi

end Formed

/-! Making the phis. -/

def Promotion.StoresTo (m : Module) (a : InstrId) (b : BlockId) : Prop :=
  ∃ u, (m.instr u).parent = some b ∧ (m.instr u).op = .store ∧ m.operand u 1 = .instr a

/-- The sets of blocks that hold the frontiers of all blocks reached with a store to a local, and
their own. -/
def Promotion.joinSets (m : Module) (f : FuncId) (e : BlockId) (a : InstrId) : Set (Set BlockId) :=
  {S | (∀ b, m.Reaches e b → StoresTo m a b → ∀ c ∈ (m.dominators f).frontier b, c ∈ S) ∧
    ∀ b ∈ S, ∀ c ∈ (m.dominators f).frontier b, c ∈ S}

def Draft.HasPhi (D : Draft) (a : InstrId) (b : BlockId) : Prop :=
  ∃ q ∈ D.newPhis b, D.localOf q = a

/-- Phis have been made and nothing else has been done. -/
structure Placed (m : Module) (f : FuncId) (p : Promotion.Placement) (D : Draft) : Prop where
  drafted : Drafted m p.module f D
  value : ∀ i, D.value i = none
  feeds : ∀ i, D.feeds i = []
  gone : ∀ i, D.gone i = false
  size : m.instrTable.size ≤ p.module.instrTable.size
  fresh : ∀ b, ∀ q ∈ D.newPhis b, q < p.module.instrTable.size
  home : ∀ b, D.newPhis b ≠ [] → ∃ c, b ∈ (m.dominators f).frontier c
  nodup : ∀ b, (D.newPhis b).Nodup
  localOf : ∀ q a, p.localOf.get q = some a ↔ D.localOf q = a ∧ ∃ b, q ∈ D.newPhis b
  distinct : ∀ b, ∀ q ∈ D.newPhis b, ∀ q' ∈ D.newPhis b, D.localOf q = D.localOf q' → q = q'

namespace Placed
variable {p : Promotion.Placement} {D : Draft} {a : InstrId}

section
variable (h : Placed m f p D)
include h

theorem operand (v : Operand) : D.operand v = v := by
  cases v <;> simp [Draft.operand,h.value]

theorem instr (hi : i < m.instrTable.size) : p.module.code.instr i = m.code.instr i := by
  rw [h.drafted.fits.kept i hi (h.gone i)]
  have hmap : (m.operands i).map D.operand = m.operands i := by
    rw [map_congr_left fun v _ => h.operand v,map_id']
  rw [hmap]
  rfl

theorem operands_new (hi : m.instrTable.size ≤ i) : (p.module.code.instr i).operands = [] := by
  by_cases hq : ∃ b, i ∈ D.newPhis b
  · obtain ⟨b,hb⟩ := hq
    rw [(h.drafted.fits.newPhi b i hb).2.2.2.2,h.feeds]
    rfl
  · exact h.drafted.fits.beyond i hi (not_exists.mp hq)

theorem objectOf (ha : a < m.instrTable.size) :
    Promotion.objectOf p.module a = Promotion.objectOf m a := by
  have hc := congrArg (fun x : Instr => x.object.getD .void) (h.instr ha)
  exact hc

theorem phis_makeInstr (hF : Shaped m f e) (hb : b ∈ (m.func f).layout) (t : Ty) :
    (p.module.makeInstr b.func .phi t none []).1.phis b = m.phis b ++ D.newPhis b := by
  have hc := code_makeInstr p.module b.func .phi t none []
  have hinstr : ∀ i, i < p.module.instrTable.size →
      (p.module.makeInstr b.func .phi t none []).1.code.instr i = p.module.code.instr i := by
    intro i hi
    rw [hc]
    refine (if_neg (Nat.ne_of_lt hi)).trans ?_
    rw [code_counted]
    split <;> rfl
  have hblock : (p.module.makeInstr b.func .phi t none []).1.code.block b =
      p.module.code.block b := by
    rw [hc,code_counted]
    split <;> rfl
  have hold : ∀ i ∈ (m.block b).instrs,
      ((p.module.makeInstr b.func .phi t none []).1.instr i).op = (m.instr i).op := by
    intro i hi
    have hlt := hF.lt_size hb hi
    have hop := congrArg Instr.op ((hinstr i (hlt.trans_le h.size)).trans (h.instr hlt))
    exact hop
  refine phis_of_instrs (show _ = _ ++ m.body b from ?_) ?_ ?_
  · refine (congrArg Block.instrs hblock).trans ?_
    rw [h.drafted.fits.block b hb]
    exact filter_eq_self.mpr fun i _ => by simp [h.gone]
  · intro i hi
    rcases mem_append.mp hi with hi | hi
    · rw [hold i (phis_subset m b hi)]
      exact op_of_mem_phis hi
    · exact (congrArg Instr.op (hinstr i (h.fresh b i hi))).trans (h.drafted.fits.newPhi b i hi).2.1
  · intro i hi
    rw [hold i (body_subset m b hi)]
    exact hF.not_phi b hb i hi

theorem placePhi (hF : Shaped m f e) (hb : b ∈ (m.dominators f).frontier c)
    (ha : a < m.instrTable.size) (hno : ¬D.HasPhi a b) :
    ∃ D', Placed m f (Promotion.placePhi a p b) D' ∧
      ∀ a' b', D'.HasPhi a' b' ↔ D.HasPhi a' b' ∨ a' = a ∧ b' = b := by
  have hbl := (hF.of_mem_frontier hb).1
  have hold : ∀ b', p.module.instrTable.size ∉ D.newPhis b' :=
    fun b' hq => Nat.lt_irrefl _ (h.fresh b' _ hq)
  generalize hk : p.module.instrTable.size = k at hold
  have hlocal : ∀ b', ∀ q ∈ D.newPhis b', Function.update D.localOf k a q = D.localOf q := by
    intro b' q hq
    exact Function.update_of_ne (fun (hqk : q = k) => hold b' (hqk ▸ hq)) _ _
  have hmem : ∀ b' q, q ∈ Function.update D.newPhis b (D.newPhis b ++ [k]) b' ↔
      q ∈ D.newPhis b' ∨ q = k ∧ b' = b := by
    intro b' q
    by_cases hbb : b' = b
    · subst hbb
      simp
    · simp [hbb]
  refine ⟨{ D with
    newPhis := Function.update D.newPhis b (D.newPhis b ++ [k])
    localOf := Function.update D.localOf k a },
      ⟨⟨?_,?_,?_⟩,h.value,h.feeds,h.gone,?_,?_,?_,?_,?_,?_⟩,?_⟩
  · have hm := h.drafted.mirror.makeInstr b.func .phi (Promotion.objectOf p.module a) none []
    exact hm.insertAt b _ _
  · refine Nat.le_trans h.drafted.literals (Nat.le_of_eq ?_)
    have h1 : (Promotion.placePhi a p b).module.literalTable =
        (p.module.makeInstr b.func .phi (Promotion.objectOf p.module a) none
          []).1.literalTable := rfl
    rw [h1,makeInstr_fst]
    simp only [counted,foldl_nil]
    split <;> rfl
  · have h1 : (Promotion.placePhi a p b).module.code =
      (p.module.newPhi b (Promotion.objectOf p.module a)).1.code := rfl
    have hc : ∀ t, D.Fits m f (p.module.counted b.func t).code := by
      intro t
      rw [code_counted]
      split
      · exact h.drafted.fits
      · refine { h.drafted.fits with func := fun g => ?_ }
        rw [← h.drafted.fits.func g]
        simp only [Code.modifyFunc]
        split
        · rename_i hg
          rw [hg]
        · rfl
    rw [h1,code_newPhi,h.phis_makeInstr hF hbl,h.objectOf ha,hk]
    exact (hc _).newPhi_step rfl hbl (hk ▸ h.size) hold h.gone (h.feeds k) rfl
  · have h1 : (Promotion.placePhi a p b).module.instrTable.size =
        (p.module.newPhi b (Promotion.objectOf p.module a)).1.instrTable.size := rfl
    rw [h1,size_newPhi]
    exact Nat.le_succ_of_le h.size
  · intro b' q hq
    have h1 : (Promotion.placePhi a p b).module.instrTable.size =
        (p.module.newPhi b (Promotion.objectOf p.module a)).1.instrTable.size := rfl
    rw [h1,size_newPhi]
    rcases (hmem b' q).mp hq with hq | ⟨rfl,_⟩
    · exact Nat.lt_succ_of_lt (h.fresh b' q hq)
    · exact hk ▸ Nat.lt_succ_self _
  · intro b' hne
    obtain ⟨q,hq⟩ := exists_mem_of_ne_nil _ hne
    rcases (hmem b' q).mp hq with hq | ⟨_,rfl⟩
    · exact h.home b' (ne_nil_of_mem hq)
    · exact ⟨c,hb⟩
  · intro b'
    by_cases hbb : b' = b
    · subst hbb
      simp only [Function.update_self]
      refine nodup_append.mpr ⟨h.nodup b',nodup_singleton k,?_⟩
      intro x hx y hy hxy
      exact hold b' (mem_singleton.mp hy ▸ hxy ▸ hx)
    · simp only [Function.update_of_ne hbb]
      exact h.nodup b'
  · intro q a'
    have h1 : (Promotion.placePhi a p b).localOf.get q =
      (p.localOf.set p.module.instrTable.size (some a)).get q := rfl
    rw [h1,Table.get_set,hk]
    by_cases hqk : k = q
    · subst hqk
      simp [hmem]
    · rw [if_neg hqk,h.localOf]
      simp only [Function.update_of_ne (Ne.symm hqk),hmem,Ne.symm hqk,false_and,or_false]
  · intro b' q hq q' hq' heq
    have hne : ∀ x ∈ D.newPhis b, D.localOf x ≠ a := fun x hx hxa => hno ⟨x,hx,hxa⟩
    simp only at heq
    rcases (hmem b' q).mp hq with hold1 | ⟨hqk,hqb⟩ <;>
      rcases (hmem b' q').mp hq' with hold2 | ⟨hqk',hqb'⟩
    · rw [hlocal b' q hold1,hlocal b' q' hold2] at heq
      exact h.distinct b' q hold1 q' hold2 heq
    · rw [hlocal b' q hold1,hqk',Function.update_self] at heq
      exact absurd heq (hne q (hqb' ▸ hold1))
    · rw [hlocal b' q' hold2,hqk,Function.update_self] at heq
      exact absurd heq.symm (hne q' (hqb ▸ hold2))
    · rw [hqk,hqk']
  · intro a' b'
    constructor
    · rintro ⟨q,hq,rfl⟩
      rcases (hmem b' q).mp hq with hq | ⟨rfl,rfl⟩
      · exact .inl ⟨q,hq,(hlocal b' q hq).symm⟩
      · exact .inr ⟨Function.update_self ..,rfl⟩
    · rintro (⟨q,hq,rfl⟩ | ⟨rfl,rfl⟩)
      · exact ⟨q,(hmem b' q).mpr (.inl hq),hlocal b' q hq⟩
      · exact ⟨k,(hmem b' k).mpr (.inr ⟨rfl,rfl⟩),Function.update_self ..⟩

end

theorem foldl_placePhi (hF : Shaped m f e) (ha : a < m.instrTable.size) (bs : List BlockId)
    (hnd : bs.Nodup) (hbs : ∀ b ∈ bs, ∃ c, b ∈ (m.dominators f).frontier c) (h : Placed m f p D)
    (hno : ∀ b ∈ bs, ¬D.HasPhi a b) :
    ∃ D', Placed m f (bs.foldl (Promotion.placePhi a) p) D' ∧
      ∀ a' b', D'.HasPhi a' b' ↔ D.HasPhi a' b' ∨ a' = a ∧ b' ∈ bs := by
  induction bs generalizing p D with
  | nil => exact ⟨D,h,by simp⟩
  | cons b bs ih =>
    obtain ⟨c,hc⟩ := hbs b mem_cons_self
    obtain ⟨D1,h1,hp1⟩ := h.placePhi hF hc ha (hno b mem_cons_self)
    have hno1 : ∀ b' ∈ bs, ¬D1.HasPhi a b' := by
      intro b' hb' hp
      rcases (hp1 a b').mp hp with hp | ⟨_,rfl⟩
      · exact hno b' (mem_cons_of_mem _ hb') hp
      · exact (nodup_cons.mp hnd).1 hb'
    obtain ⟨D2,h2,hp2⟩ :=
      ih (nodup_cons.mp hnd).2 (fun b' hb' => hbs b' (mem_cons_of_mem _ hb')) h1 hno1
    refine ⟨D2,h2,fun a' b' => ?_⟩
    rw [hp2,hp1,mem_cons,or_assoc,← and_or_left]

theorem initial (hm : m.Mirror) : Placed m f ⟨m,.empty,0⟩ .initial where
  drafted := by
    refine ⟨hm,Nat.le_refl _,rfl,rfl,rfl,fun _ => rfl,?_,fun _ _ => rfl,fun _ _ => rfl,?_,?_,?_,?_⟩
    · intro b _
      have hi : (m.block b).instrs = (Draft.initial.line m b).filter fun i =>
          !Draft.initial.gone i := by
        rw [instrs_eq_phis_append]
        simp [Draft.line,Draft.initial]
      rw [← hi]
      rfl
    · intro i _ _
      have hid : ∀ v, Draft.initial.operand v = v := fun v => by cases v <;> rfl
      rw [map_congr_left fun v _ => hid v,map_id']
      rfl
    · intro i hi
      cases hi
    · intro b p hp
      cases hp
    · intro i hi _
      have := instr_of_size_le hi
      show (m.instr i).operands = []
      rw [this]
      rfl
  value _ := rfl
  feeds _ := rfl
  gone _ := rfl
  size := Nat.le_refl _
  fresh _ _ hq := nomatch hq
  home _ hn := absurd rfl hn
  nodup _ := nodup_nil
  localOf q a := by simp [Draft.initial]
  distinct _ _ hq := nomatch hq

/-- Phis for a local stand where its stores meet, and nowhere else. -/
def Joined (m : Module) (f : FuncId) (e : BlockId) (D : Draft) (a : InstrId) : Prop :=
  IsLeast (Promotion.joinSets m f e a) {b | D.HasPhi a b}

theorem mem_storeBlocks_iff (h : Placed m f p D) (hF : Shaped m f e)
    (hst : ∀ u, .instr a ∈ m.operands u → (m.instr u).op = .store → m.operand u 1 = .instr a) :
    b ∈ Promotion.storeBlocks p.module (m.dominators f) a ↔
    m.Reaches e b ∧ Promotion.StoresTo m a b := by
  rw [(Promotion.mem_storeBlocks hF.numbered p.module a).2 b,hF.reachable_iff]
  have huses : ∀ u, u ∈ (p.module.instr a).uses ↔ .instr a ∈ p.module.operands u :=
    h.drafted.mirror.mem_uses_iff (v := .instr a) (by simp)
  refine and_congr_right fun _ => ⟨?_,?_⟩
  · rintro ⟨u,hu,hop,hp⟩
    have hmem := (huses u).mp hu
    have hlt : u < m.instrTable.size := by
      by_contra hge
      rw [operands_eq_code,h.operands_new (Nat.not_lt.mp hge)] at hmem
      cases hmem
    have hcode := h.instr hlt
    have hop' : (m.instr u).op = .store := (congrArg Instr.op hcode).symm.trans hop
    rw [operands_eq_code,hcode] at hmem
    exact ⟨u,(congrArg Instr.parent hcode).symm.trans hp,hop',hst u hmem hop'⟩
  · rintro ⟨u,hp,hop,harg⟩
    have hcode := h.instr (lt_size_of_ne fun hd => by rw [hd] at hp; cases hp)
    refine ⟨u,(huses u).mpr ?_,(congrArg Instr.op hcode).trans hop,
      (congrArg Instr.parent hcode).trans hp⟩
    rw [operands_eq_code,hcode]
    exact mem_operands_of_operand harg (by simp)

theorem placePhis (h : Placed m f p D) (hF : Shaped m f e) (ha : a < m.instrTable.size)
    (hst : ∀ u, .instr a ∈ m.operands u → (m.instr u).op = .store → m.operand u 1 = .instr a)
    (hno : ∀ b, ¬D.HasPhi a b) :
    ∃ D', Placed m f (Promotion.placePhis (m.dominators f) p a) D' ∧ Joined m f e D' a ∧
      ∀ a' ≠ a, ∀ b, D'.HasPhi a' b ↔ D.HasPhi a' b := by
  obtain ⟨hnd,hleast⟩ := Promotion.joinBlocks_spec hF.numbered p.module a
  have hfr : _ ≤ {b | ∃ c, b ∈ (m.dominators f).frontier c} := hleast.2 fun b _ c hc => ⟨b,hc⟩
  obtain ⟨D',h',hp⟩ := h.foldl_placePhi hF ha _ hnd hfr fun b _ => hno b
  refine ⟨D',h',?_,fun a' hne b => by simp [hp,hne]⟩
  have hset : {b | D'.HasPhi a b} = {b | b ∈ Promotion.joinBlocks p.module (m.dominators f) a} := by
    ext b
    simp [hp,hno]
  have hsets : Promotion.joinSets m f e a =
    {S | ∀ b, b ∈ Promotion.storeBlocks p.module (m.dominators f) a ∨ b ∈ S →
      ∀ c ∈ (m.dominators f).frontier b, c ∈ S} := by
    ext S
    simp only [h.mem_storeBlocks_iff hF hst]
    exact ⟨fun hS b hb => hb.elim (fun hb => hS.1 b hb.1 hb.2) (hS.2 b),
      fun hS => ⟨fun b hr hs => hS b (.inl ⟨hr,hs⟩),fun b hb => hS b (.inr hb)⟩⟩
  rw [Joined,hset,hsets]
  exact hleast

theorem foldl_placePhis (hF : Shaped m f e) (as : List InstrId) (hnd : as.Nodup)
    (has : ∀ a ∈ as, a < m.instrTable.size ∧
      ∀ u, .instr a ∈ m.operands u → (m.instr u).op = .store → m.operand u 1 = .instr a)
    (h : Placed m f p D) (hno : ∀ a ∈ as, ∀ b, ¬D.HasPhi a b) :
    ∃ D', Placed m f (as.foldl (Promotion.placePhis (m.dominators f)) p) D' ∧
      (∀ a ∈ as, Joined m f e D' a) ∧
      ∀ a ∉ as, ∀ b, D'.HasPhi a b ↔ D.HasPhi a b := by
  induction as generalizing p D with
  | nil => exact ⟨D,h,by simp,fun _ _ _ => Iff.rfl⟩
  | cons a as ih =>
    obtain ⟨ha,hst⟩ := has a mem_cons_self
    obtain ⟨D1,h1,hj1,hp1⟩ := h.placePhis hF ha hst (hno a mem_cons_self)
    have haas := (nodup_cons.mp hnd).1
    have hne : ∀ a' ∈ as, a' ≠ a := fun a' ha' heq => haas (heq ▸ ha')
    obtain ⟨D2,h2,hj2,hp2⟩ := ih (nodup_cons.mp hnd).2 (fun x hx => has x (mem_cons_of_mem _ hx)) h1
      fun a' ha' b => by rw [hp1 a' (hne a' ha')]; exact hno a' (mem_cons_of_mem _ ha') b
    refine ⟨D2,h2,?_,?_⟩
    · intro x hx
      rcases mem_cons.mp hx with rfl | hx
      · have hsame : {b | D2.HasPhi x b} = {b | D1.HasPhi x b} := Set.ext (hp2 x haas)
        rwa [Joined,hsame]
      · exact hj2 x hx
    · grind

end Placed

namespace Promotion
variable {a : InstrId}

theorem mem_candidates : a ∈ candidates m f ↔ a ∈ m.instrs f ∧ promotable m a = true := by
  rw [candidates,mem_flatMap,mem_instrs_iff]
  constructor
  · rintro ⟨b,hb,ha⟩
    exact ⟨⟨b,hb,(mem_filter.mp ha).1⟩,(mem_filter.mp ha).2⟩
  · rintro ⟨⟨b,hb,ha⟩,hp⟩
    exact ⟨b,hb,mem_filter.mpr ⟨ha,hp⟩⟩

theorem candidates_nodup (h : (m.instrs f).Nodup) : (candidates m f).Nodup := by
  rw [candidates,← filter_flatMap]
  exact h.filter _

theorem promotable_iff : promotable m a = true ↔ (m.instr a).op = .alloca ∧
    (m.instr a).object.any Ty.isScalar = true ∧ ∀ u ∈ (m.instr a).uses,
      (m.instr u).op = .load ∧ m.operand u 0 = .instr a ∨
        (m.instr u).op = .store ∧ m.operand u 1 = .instr a ∧ m.operand u 0 ≠ .instr a := by
  simp [promotable,and_assoc]

theorem get_tracked (as : List InstrId) (t : Table Bool) (a : InstrId) :
    (as.foldl (fun t a => t.set a true) t).get a = true ↔ t.get a = true ∨ a ∈ as := by
  induction as generalizing t with
  | nil => simp
  | cons x as ih =>
    rw [foldl_cons,ih,Table.get_set,mem_cons]
    by_cases hx : x = a
    · simp [hx]
    · simp [hx,Ne.symm hx]

/-- The function with its phis, nothing renamed yet. -/
def placement (m : Module) (f : FuncId) : Placement :=
  (candidates m f).foldl (placePhis (m.dominators f)) ⟨m,.empty,0⟩

theorem placement_spec (hm : m.Mirror) (hF : Shaped m f e) (hnd : (m.instrs f).Nodup) :
    ∃ D, Placed m f (placement m f) D ∧
    (∀ a ∈ candidates m f, Placed.Joined m f e D a) ∧ ∀ a ∉ candidates m f, ∀ b, ¬D.HasPhi a b := by
  have hcand : ∀ a ∈ candidates m f, a < m.instrTable.size ∧
      ∀ u, .instr a ∈ m.operands u → (m.instr u).op = .store → m.operand u 1 = .instr a := by
    intro a ha
    obtain ⟨hi,hp⟩ := mem_candidates.mp ha
    obtain ⟨b,hb,hab⟩ := mem_instrs_iff.mp hi
    refine ⟨hF.lt_size hb hab,fun u hu hop => ?_⟩
    rcases (promotable_iff.mp hp).2.2 u ((hm.mem_uses_iff (by simp) u).mpr hu)
      with ⟨hl,_⟩ | ⟨_,ho,_⟩
    · rw [hop] at hl
      cases hl
    · exact ho
  obtain ⟨D,h,hj,hno⟩ := Placed.foldl_placePhis hF _ (candidates_nodup hnd) hcand
    (Placed.initial hm) fun a _ b hb => nomatch hb
  refine ⟨D,h,hj,fun a ha b hb => ?_⟩
  obtain ⟨q,hq,_⟩ := (hno a ha b).mp hb
  cases hq

end Promotion
end CMinusF
