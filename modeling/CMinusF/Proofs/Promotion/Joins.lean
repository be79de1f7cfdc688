import Mathlib.Data.List.GetD
import CMinusF.Proofs.Flow.ImmediateDominators
import CMinusF.Proofs.Promotion.Correct

/-! Phis are enough: where a block has none for a local, the local is worth the same at the end of
all its predecessors. Single assignment is not needed for this, only that the addresses of locals
are not passed on. -/
namespace CMinusF
open CMinusF.Module List
namespace Promotion
variable {names : Names} {b e : BlockId} {m : Module} {f : FuncId} {v : Operand} {a : InstrId}

def Placement.phisFor (p : Placement) (a : InstrId) (b : BlockId) : List InstrId :=
  (p.module.block b).instrs.filter fun q => p.localOf.get q = some a

def namesOf (m : Module) (f : FuncId) : Names :=
  ⟨(candidates m f).foldl (fun t a => t.set a true) .empty,(placement m f).localOf⟩

/-- The renaming of a block and of those below it, with a record of the values at the end of each
block. -/
def renameRecorded (names : Names) (d : Dominance) :
    Nat → Values → Renaming × List (BlockId × Values) → BlockId → Renaming × List (BlockId × Values)
  | 0, _, s, _ => s
  | n+1, values, s, b =>
    let t := (s.1.module.block b).instrs.foldl (renameInstr names) (s.1,values)
    (d.children.get b).foldl (renameRecorded names d n t.2)
      (⟨feedSuccessors names t.2 b t.1.module,t.1.dead⟩,s.2 ++ [(b,t.2)])

theorem renameRecorded_fst (names : Names) (d : Dominance) (n : Nat) (values : Values)
    (s : Renaming × List (BlockId × Values)) (b : BlockId) :
    (renameRecorded names d n values s b).1 = renameBlock names d n values s.1 b := by
  induction n generalizing values s b with
  | zero => rfl
  | succ n ih =>
    have hfold : ∀ (cs : List BlockId) values s, (cs.foldl (renameRecorded names d n values) s).1 =
        cs.foldl (renameBlock names d n values) s.1 := by
      intro cs values s
      induction cs generalizing s with
      | nil => rfl
      | cons c cs ihc => rw [foldl_cons,ihc,ih,foldl_cons]
    exact hfold ..

def record (m : Module) (f : FuncId) : Renaming × List (BlockId × Values) :=
  renameRecorded (namesOf m f) (m.dominators f) (m.blockCount + 1) .empty
    (⟨(placement m f).module,[]⟩,[])
    ((m.func f).entryBlock?.getD default)

/-- The outcome once all that is reached has been renamed: the other blocks follow, and what has
become useless goes. -/
def outcome (m : Module) (f : FuncId) (s : Renaming) : Result :=
  let r := ((m.func f).layout.filter fun b => !(m.dominators f).reachable b).foldl
    (fun r b => (r.module.block b).instrs.foldl (renameUnreached (namesOf m f)) r) s
  match eraseLocals f (r.dead.foldl Module.erase r.module) (candidates m f) with
  | (n,none) => ⟨n,⟨(candidates m f).length,(placement m f).count⟩,none⟩
  | (n,some e) => ⟨n,⟨0,(placement m f).count⟩,some e⟩

theorem run_eq_outcome {m : Module} {f : FuncId} (hdef : (m.func f).isDeclaration = false)
    (hne : candidates m f ≠ []) :
    run m f (m.dominators f) = outcome m f (record m f).1 := by
  rw [record,renameRecorded_fst,run,if_neg (by simp [hdef,hne])]
  rfl

/-! What renaming leaves alone. -/

/-- Blocks and operations stay, and the address of a local stands only where it stood. -/
structure Reworded (names : Names) (m n : Module) : Prop where
  mirror : n.Mirror
  instrs : ∀ b, (n.block b).instrs = (m.block b).instrs
  op : ∀ i, (n.instr i).op = (m.instr i).op
  address : ∀ i k, n.operand i k = m.operand i k ∨ names.target? (n.operand i k) = none

/-- No local holds the address of a local. -/
def Values.Plain (names : Names) (values : Values) : Prop :=
  ∀ x v, values.get x = some v → names.target? v = none

/-- Neither phis nor stores pass the address of a local on. -/
structure Direct (names : Names) (m : Module) : Prop where
  phi : ∀ i, (m.instr i).op = .phi → names.target? (.instr i) = none
  store : ∀ i, (m.instr i).op = .store → names.target? (m.operand i 0) = none

/-- An instruction that gives a local a value: one of its phis or stores. -/
def Assigns (names : Names) (m : Module) (a i : InstrId) : Prop :=
  (m.instr i).op = .phi ∧ names.localOf.get i = some a ∨ (m.instr i).op = .store ∧
    m.operand i 1 = .instr a

theorem Names.target?_eq_some :
    names.target? v = some a ↔ v = .instr a ∧ names.tracked.get a = true := by
  cases v with
  | instr b =>
    simp only [target?,Option.ite_none_right_eq_some,Option.some.injEq,Operand.instr.injEq]
    grind
  | _ => simp [target?]

namespace Reworded
variable {n n' : Module} {values : Values} {r : Renaming} {i : InstrId}

section
variable (h : Reworded names m n)
include h

theorem step (hm : n'.Mirror) (hb : n'.code.block = n.code.block)
    (hop : ∀ i, (n'.code.instr i).op = (n.code.instr i).op)
    (ho : ∀ i k, n'.operand i k = n.operand i k ∨ names.target? (n'.operand i k) = none) :
    Reworded names m n' where
  mirror := hm
  instrs b := (congrArg Block.instrs (congrFun hb b)).trans (h.instrs b)
  op i := (hop i).trans (h.op i)
  address i k := by
    rcases ho i k with hk | hk
    · rw [hk]
      exact h.address i k
    · exact Or.inr hk

theorem addLiteral (c : Constant) : Reworded names m (n.addLiteral c).1 := by
  have hc := code_addLiteral n c
  refine h.step (h.mirror.addLiteral c) (by rw [hc]; rfl)
    (fun i => by rw [hc]; rfl) fun i k => .inl ?_
  rfl

theorem current (hV : values.Plain names) (a : InstrId) :
    Reworded names m (Promotion.current n values a).1 ∧
    names.target? (Promotion.current n values a).2 = none := by
  unfold Promotion.current
  split
  · rename_i v hv
    exact ⟨h,hV a v hv⟩
  · exact ⟨h.addLiteral _,rfl⟩

theorem replaceUses (hv : names.target? v = none) (i : InstrId) :
    Reworded names m (n.replaceUses (.instr i) v) := by
  obtain ⟨hc,hm⟩ := code_replaceUses h.mirror (.instr i) (by simp) v
  refine h.step hm (by rw [hc]; rfl) (fun i => by rw [hc]; rfl) fun j k => ?_
  have hk : (n.replaceUses (.instr i) v).operand j k =
      Operand.replace (.instr i) v (n.operand j k) := by
    rw [operand,operands_eq_code,hc]
    exact getD_map _ .hole (Operand.replace (.instr i) v)
  rw [hk,Operand.replace]
  split
  · exact .inr hv
  · exact .inl rfl

theorem addIncoming (hv : names.target? v = none) (phi : InstrId) (b : BlockId) :
    Reworded names m (n.addIncoming phi v b) := by
  have hc := code_addIncoming n phi v b
  refine h.step (h.mirror.addIncoming phi v b) (by rw [hc]; rfl) (fun i => ?_) fun j k => ?_
  · rw [hc,Code.instr_setOperands]
  · rw [operand,operands_setOperands_of_code hc]
    split
    · rename_i hj
      subst hj
      by_cases hk : k < (n.operands phi).length
      · exact .inl (getD_append _ _ _ _ hk)
      · rw [getD_append_right _ _ _ _ (Nat.not_lt.mp hk)]
        rcases k - (n.operands phi).length with _ | _ | _
        exacts [.inr hv,.inr rfl,.inr rfl]
    · exact .inl rfl

theorem feedSuccessors (hV : values.Plain names) (b : BlockId) :
    Reworded names m (Promotion.feedSuccessors names values b n) := by
  refine foldlRecOn _ _ h fun n h s _ => foldlRecOn _ _ h fun n h phi _ => ?_
  unfold feedPhi
  split
  · rename_i a _
    obtain ⟨hn,hv⟩ := h.current hV a
    exact hn.addIncoming hv phi b
  · exact h

end

theorem renameInstr (hm : Direct names m) (h : Reworded names m r.module) (hV : values.Plain names)
    (i : InstrId) :
    let s := Promotion.renameInstr names (r,values) i
    Reworded names m s.1.module ∧ s.2.Plain names ∧
      (¬Assigns names m a i → s.2.get a = values.get a) := by
  have hset : ∀ x v, names.target? v = none → Values.Plain names (values.set x (some v)) := by
    intro x v hv y w hy
    rw [Table.get_set] at hy
    split at hy
    · exact Option.some.inj hy ▸ hv
    · exact hV y w hy
  unfold Promotion.renameInstr
  simp only
  split
  · rename_i hop
    rw [h.op] at hop
    split
    · rename_i x hx
      refine ⟨h,hset x _ (hm.phi i hop),fun hno => ?_⟩
      rw [Table.get_set,if_neg fun (hxa : x = a) => hno (.inl ⟨hop,hxa ▸ hx⟩)]
    · exact ⟨h,hV,fun _ => rfl⟩
  · rename_i hop
    rw [h.op] at hop
    split
    · rename_i x hx
      have harg : m.operand i 1 = .instr x := by
        rcases h.address i 1 with heq | hnone
        · exact heq ▸ (Names.target?_eq_some.mp hx).1
        · rw [hnone] at hx
          cases hx
      refine ⟨h,hset x _ ?_,fun hno => ?_⟩
      · rcases h.address i 0 with heq | hnone
        · exact heq ▸ hm.store i hop
        · exact hnone
      · rw [Table.get_set,if_neg fun (hxa : x = a) => hno (.inr ⟨hop,hxa ▸ harg⟩)]
    · exact ⟨h,hV,fun _ => rfl⟩
  · split
    · rename_i x _
      obtain ⟨hn,hv⟩ := h.current hV x
      exact ⟨hn.replaceUses hv i,hV,fun _ => rfl⟩
    · exact ⟨h,hV,fun _ => rfl⟩
  · exact ⟨h,hV,fun _ => rfl⟩

theorem foldl_renameInstr (hm : Direct names m) (is : List InstrId) (h : Reworded names m r.module)
    (hV : values.Plain names) : let s := is.foldl (Promotion.renameInstr names) (r,values)
    Reworded names m s.1.module ∧ s.2.Plain names ∧
      ((∀ i ∈ is, ¬Assigns names m a i) → s.2.get a = values.get a) := by
  induction is generalizing r values with
  | nil => exact ⟨h,hV,fun _ => rfl⟩
  | cons i is ih =>
    obtain ⟨h1,hV1,hk1⟩ := h.renameInstr hm hV i
    obtain ⟨h2,hV2,hk2⟩ := ih h1 hV1
    exact ⟨h2,hV2,fun hno => (hk2 fun j hj => hno j (mem_cons_of_mem _ hj)).trans
      (hk1 (hno i mem_cons_self))⟩

end Reworded

/-! The record. -/

/-- A record of the blocks below some: each is in it once, and where nothing assigns to a local it
keeps the value it has above. -/
structure Recorded (idom : BlockMap (Option BlockId)) (names : Names) (m : Module) (a : InstrId)
    (roots : List BlockId) (values : Values) (log : List (BlockId × Values)) : Prop where
  nodup : (log.map (·.1)).Nodup
  mem : ∀ x, x ∈ log.map (·.1) ↔ ∃ b ∈ roots, Dominance.Above idom b x
  kept : ∀ x V, (x,V) ∈ log → (∀ i ∈ (m.block x).instrs, ¬Assigns names m a i) →
    x ∈ roots ∧ V.get a = values.get a ∨ ∃ y U, idom.get x = some y ∧ (y,U) ∈ log ∧
      V.get a = U.get a

namespace Recorded
variable {idom : BlockMap (Option BlockId)} {n : Module} {roots : List BlockId}
  {values V W : Values} {log log' : List (BlockId × Values)} {c : BlockId}

theorem cons (h : Recorded idom names m a [b] values log)
    (h' : Recorded idom names m a roots values log')
    (hd : ∀ x, Dominance.Above idom b x → ∀ c ∈ roots, ¬Dominance.Above idom c x) :
    Recorded idom names m a (b::roots) values (log ++ log') where
  nodup := by
    rw [map_append]
    refine nodup_append.mpr ⟨h.nodup,h'.nodup,fun x hx y hy hxy => ?_⟩
    obtain ⟨b',hb,hbx⟩ := (h.mem x).mp hx
    obtain ⟨c,hc,hcy⟩ := (h'.mem y).mp hy
    exact hd x (mem_singleton.mp hb ▸ hbx) c hc (hxy ▸ hcy)
  mem x := by
    rw [map_append,mem_append,h.mem,h'.mem]
    simp
  kept x V hx hno := by
    rcases mem_append.mp hx with hx | hx
    · rcases h.kept x V hx hno with ⟨hr,hv⟩ | ⟨y,U,hy,hU,hv⟩
      · exact .inl ⟨mem_cons.mpr (.inl (mem_singleton.mp hr)),hv⟩
      · exact .inr ⟨y,U,hy,mem_append_left _ hU,hv⟩
    · rcases h'.kept x V hx hno with ⟨hr,hv⟩ | ⟨y,U,hy,hU,hv⟩
      · exact .inl ⟨mem_cons_of_mem _ hr,hv⟩
      · exact .inr ⟨y,U,hy,mem_append_right _ hU,hv⟩

theorem node (hG : FlowGraph n f e)
    (h : Recorded (n.dominators f).idom names m a ((n.dominators f).children.get b) W log)
    (hW : (∀ i ∈ (m.block b).instrs, ¬Assigns names m a i) → W.get a = values.get a) :
    Recorded (n.dominators f).idom names m a [b] values ((b,W)::log) where
  nodup := by
    refine nodup_cons.mpr ⟨fun hb => ?_,h.nodup⟩
    obtain ⟨c,hc,hcb⟩ := (h.mem b).mp hb
    exact Nat.lt_irrefl _ (Nat.lt_of_lt_of_le (hG.child_lt hc)
      (hG.isDominatorTree.tree.rank_le hcb))
  mem x := by
    rw [map_cons,mem_cons,h.mem]
    simp only [mem_singleton,exists_eq_left]
    constructor
    · rintro (rfl | ⟨c,hc,hcx⟩)
      · exact .refl
      · exact .trans (.up (hG.mem_children_iff.mp hc).2 .refl) hcx
    · intro hx
      by_cases hbx : b = x
      · exact .inl hbx.symm
      · exact .inr (hG.exists_child hx hbx)
  kept x V hx hno := by
    rcases mem_cons.mp hx with hx | hx
    · grind
    · right
      rcases h.kept x V hx hno with ⟨hr,hv⟩ | ⟨y,U,hy,hU,hv⟩
      · exact ⟨b,W,(hG.mem_children_iff.mp hr).2,mem_cons_self,hv⟩
      · exact ⟨y,U,hy,mem_cons_of_mem _ hU,hv⟩

theorem eq_of_mem (h : Recorded idom names m a roots values log) (hV : (b,V) ∈ log)
    (hW : (b,W) ∈ log) : V = W :=
  congrArg Prod.snd (inj_on_of_nodup_map h.nodup hV hW rfl)

theorem renameRecorded (hG : FlowGraph n f e) (hm : Direct names m) (k : Nat)
    {s : Renaming × List (BlockId × Values)} (hs : Reworded names m s.1.module)
    (hV : values.Plain names) (hk : (Dominance.postorderNumbers (n.reversePostorder e)).get b < k) :
    Reworded names m (Promotion.renameRecorded names (n.dominators f) k values s b).1.module ∧
      ∃ log, (Promotion.renameRecorded names (n.dominators f) k values s b).2 = s.2 ++ log ∧
        Recorded (n.dominators f).idom names m a [b] values log := by
  induction k generalizing values s b with
  | zero => exact absurd hk (Nat.not_lt_zero _)
  | succ k ih =>
    -- the children one after the other, with disjoint trees below them
    have hfold : ∀ {W : Values} (cs : List BlockId) (s : Renaming × List (BlockId × Values)),
      W.Plain names → cs.Nodup →
        (∀ c ∈ cs, c ∈ (n.dominators f).children.get b) → Reworded names m s.1.module →
        Reworded names m (cs.foldl (Promotion.renameRecorded names (n.dominators f) k W)
          s).1.module ∧
          ∃ log, (cs.foldl (Promotion.renameRecorded names (n.dominators f) k W) s).2 = s.2 ++ log ∧
            Recorded (n.dominators f).idom names m a cs W log := by
      intro W cs
      induction cs with
      | nil => exact fun s _ _ _ hs => ⟨hs,[],by simp,⟨by simp,by simp,by simp⟩⟩
      | cons c cs ihc =>
        intro s hW hnd hcs hs
        have hc := hcs c mem_cons_self
        obtain ⟨hcn,hnd⟩ := nodup_cons.mp hnd
        obtain ⟨h1,log1,hlog1,hr1⟩ :=
          ih hs hW (Nat.lt_of_lt_of_le (hG.child_lt hc) (Nat.lt_succ_iff.mp hk))
        obtain ⟨h2,log2,hlog2,hr2⟩ := ihc _ hW hnd (fun x hx => hcs x (mem_cons_of_mem _ hx)) h1
        refine ⟨h2,log1 ++ log2,by rw [foldl_cons,hlog2,hlog1,append_assoc],
          hr1.cons hr2 fun x hx c' hc' => ?_⟩
        exact hG.disjoint_children hc (hcs c' (mem_cons_of_mem _ hc'))
          (fun heq => hcn (heq ▸ hc')) hx
    obtain ⟨h1,hW,hkeep⟩ := hs.foldl_renameInstr hm (s.1.module.block b).instrs hV
    rw [Promotion.renameRecorded]
    generalize (s.1.module.block b).instrs.foldl (Promotion.renameInstr names) (s.1,values) =
      t at h1 hW hkeep ⊢
    obtain ⟨h2,log,hlog,hr⟩ :=
      hfold _ (⟨Promotion.feedSuccessors names t.2 b t.1.module,t.1.dead⟩,s.2 ++ [(b,t.2)]) hW
      hG.children_nodup (fun _ hc => hc) (h1.feedSuccessors hW b)
    exact ⟨h2,_,hlog.trans (append_assoc ..),hr.node hG (hs.instrs b ▸ hkeep)⟩

/-- From the immediate dominator of a block down to a predecessor a local is worth the same, if
nothing assigns to it in the blocks with that block in their frontier. -/
theorem get_eq (hG : FlowGraph n f e) (h : Recorded (n.dominators f).idom names m a [e] values log)
    {s t q : BlockId} (hs : s ≠ e) (ht : (n.dominators f).idom.get s = some t) (hq : n.Reaches e q)
    (hsq : s ∈ n.succs q) (hno : ∀ c, n.Reaches e c → s ∈ (n.dominators f).frontier c →
      ∀ i ∈ (m.block c).instrs, ¬Assigns names m a i)
    (hc : Dominance.Above (n.dominators f).idom t c)
    (hcq : Dominance.Above (n.dominators f).idom c q) (hV : (c,V) ∈ log) (hW : (t,W) ∈ log) :
    V.get a = W.get a := by
  have htree := hG.isDominatorTree
  induction hc generalizing V with
  | refl => rw [h.eq_of_mem hV hW]
  | @up c y hy hty ih =>
    by_cases hct : c = t
    · rw [h.eq_of_mem hV (hct ▸ hW)]
    · have hreach : n.Reaches e c := (htree.isSome_iff c).mp (by simp [hy])
      have hfront := (hG.mem_frontier_iff_above hs ht).mpr ⟨q,hq,hsq,hcq,.up hy hty,hct⟩
      rcases h.kept c V hV (hno c hreach hfront) with ⟨hce,_⟩ | ⟨y',U,hy',hU,hv⟩
      · have hce := mem_singleton.mp hce
        exact absurd (htree.tree.above_entry (hce ▸ .up hy hty)) fun hte => hct (hce.trans hte.symm)
      · obtain rfl := Option.some.inj (hy.symm.trans hy')
        exact hv.trans (ih (.trans (.up hy .refl) hcq) hU)

end Recorded
end Promotion

theorem Tidy.shaped (h : Tidy m f) (hv : m.verify f = .ok ())
    (he : (m.func f).entryBlock? = some e) : Shaped m f e where
  toFlowGraph := LaidOut.flowGraph ⟨h.layout_nodup,h.listed⟩ hv he
  parent b hb i hi := by
    obtain ⟨pre,post,hs⟩ := append_of_mem hi
    exact ((blockChecked hv hb).instr pre i post hs).parent
  not_phi _ hb _ hi := Tidy.not_phi hv hb hi

namespace Placed
open Promotion
variable {p : Placement} {D : Draft} {i : InstrId}

variable (h : Placed m f p D)
include h

theorem op_old (hi : i < m.instrTable.size) : (p.module.instr i).op = (m.instr i).op :=
  (congrArg Instr.op (h.instr hi) :)

theorem operands_old (hi : i < m.instrTable.size) : p.module.operands i = m.operands i :=
  (congrArg Instr.operands (h.instr hi) :)

theorem instrs_eq (hb : b ∈ (m.func f).layout) :
    (p.module.block b).instrs = m.phis b ++ D.newPhis b ++ m.body b := by
  rw [instrs_eq_code,h.drafted.fits.block b hb]
  exact filter_eq_self.mpr fun i _ => by simp [h.gone]

theorem mem_instrs (hb : b ∈ (m.func f).layout) (hi : i ∈ (p.module.block b).instrs) :
    i ∈ D.newPhis b ∨ i ∈ (m.block b).instrs := by
  rw [h.instrs_eq hb,append_assoc,mem_append,mem_append] at hi
  rcases hi with hi | hi | hi
  · exact .inr (phis_subset m b hi)
  · exact .inl hi
  · exact .inr (body_subset m b hi)

theorem localOf_of_lt (hi : i < m.instrTable.size) : p.localOf.get i ≠ some a := by
  intro ha
  obtain ⟨_,b,hb⟩ := (h.localOf i a).mp ha
  exact Nat.lt_irrefl _ (hi.trans_le (h.drafted.fits.newPhi b i hb).1)

theorem phisFor_eq (hF : Shaped m f e) (hb : b ∈ (m.func f).layout) :
    p.phisFor a b = (D.newPhis b).filter fun q => D.localOf q = a := by
  have hold : ∀ is ⊆ (m.block b).instrs,
      is.filter (fun q => decide (p.localOf.get q = some a)) = [] := by
    intro is his
    rw [filter_eq_nil_iff]
    exact fun i hi => by simpa using h.localOf_of_lt (hF.lt_size hb (his hi))
  rw [Placement.phisFor,h.instrs_eq hb,filter_append,filter_append,hold _ (phis_subset m b),
    hold _ (body_subset m b),nil_append,append_nil]
  refine filter_congr fun q hq => ?_
  rw [decide_eq_decide,h.localOf]
  exact and_iff_left ⟨b,hq⟩

theorem phisFor_ne_nil_iff (hF : Shaped m f e) (hb : b ∈ (m.func f).layout) :
    p.phisFor a b ≠ [] ↔ D.HasPhi a b := by
  rw [h.phisFor_eq hF hb,ne_eq,filter_eq_nil_iff]
  simp [Draft.HasPhi]

theorem length_phisFor_le (hF : Shaped m f e) (hb : b ∈ (m.func f).layout) :
    (p.phisFor a b).length ≤ 1 := by
  have hnd := (h.nodup b).filter fun q => decide (D.localOf q = a)
  rw [h.phisFor_eq hF hb]
  match hqs : (D.newPhis b).filter fun q => decide (D.localOf q = a) with
  | [] | [_] => simp
  | q::q'::_ =>
    obtain ⟨hq,hqa⟩ := mem_filter.mp (hqs ▸ mem_cons_self)
    obtain ⟨hq',hqa'⟩ := mem_filter.mp (hqs ▸ mem_cons_of_mem q mem_cons_self)
    rw [hqs,h.distinct b q hq q' hq'
      ((of_decide_eq_true hqa).trans (of_decide_eq_true hqa').symm)] at hnd
    simp at hnd

/-- What assigns to a local in a block with its phis is one of them or a store. -/
theorem assigns (hF : Shaped m f e) (hb : b ∈ (m.func f).layout)
    (hi : i ∈ (p.module.block b).instrs) (hn : names.localOf = p.localOf)
    (ha : Assigns names p.module a i) : D.HasPhi a b ∨ StoresTo m a b := by
  rcases h.mem_instrs hb hi with hq | hq
  · left
    rcases ha with ⟨_,ha⟩ | ⟨hop,_⟩
    · exact ⟨i,hq,((h.localOf i a).mp (hn ▸ ha)).1⟩
    · have hphi : (p.module.instr i).op = .phi := (h.drafted.fits.newPhi b i hq).2.1
      rw [hop] at hphi
      cases hphi
  · right
    have hlt := hF.lt_size hb hq
    rcases ha with ⟨_,ha⟩ | ⟨hop,ho⟩
    · exact absurd (hn ▸ ha) (h.localOf_of_lt hlt)
    · rw [Module.operand,h.operands_old hlt] at ho
      exact ⟨i,hF.parent b hb i hq,(h.op_old hlt).symm.trans hop,ho⟩

theorem direct (hF : Shaped m f e) (hm : m.Mirror)
    (ht : ∀ a, names.tracked.get a = true ↔ a ∈ candidates m f) : Direct names p.module := by
  have hcand : ∀ v a, names.target? v = some a → v = .instr a ∧ a < m.instrTable.size ∧
      promotable m a = true := by
    intro v a hv
    obtain ⟨hv,ha⟩ := Names.target?_eq_some.mp hv
    obtain ⟨hi,hp⟩ := mem_candidates.mp ((ht a).mp ha)
    obtain ⟨b,hb,hab⟩ := mem_instrs_iff.mp hi
    exact ⟨hv,hF.lt_size hb hab,hp⟩
  refine ⟨fun i hop => Option.eq_none_iff_forall_ne_some.mpr fun a ha => ?_,
    fun i hop => Option.eq_none_iff_forall_ne_some.mpr fun a ha => ?_⟩
  · obtain ⟨hia,hlt,hp⟩ := hcand _ a ha
    obtain rfl := Operand.instr.inj hia
    rw [h.op_old hlt,(promotable_iff.mp hp).1] at hop
    cases hop
  · obtain ⟨hia,_,hp⟩ := hcand _ a ha
    have hmem := mem_operands_of_operand hia (by simp)
    have hlt : i < m.instrTable.size := by
      by_contra hge
      rw [operands_eq_code,h.operands_new (Nat.not_lt.mp hge)] at hmem
      cases hmem
    rw [h.operands_old hlt] at hmem
    rw [Module.operand,h.operands_old hlt] at hia
    rcases (promotable_iff.mp hp).2.2 i ((hm.mem_uses_iff (by simp) i).mpr hmem)
      with ⟨hl,_⟩ | ⟨_,_,hne⟩
    · rw [← h.op_old hlt,hop] at hl
      cases hl
    · exact hne hia

end Placed

/-- In a function that has been checked, phis for a promoted local are made in the least set of
blocks that holds the frontiers of the blocks that are reached with a store to it, and its own; one
in each. Then the blocks that are reached are renamed, each once. In all without a phi but the
entry, the local is worth the same at the end of every predecessor that is reached as at the end of
the immediate dominator. -/
theorem phi_placement_exact {m : Module} {f : FuncId} {e : BlockId} {a : InstrId}
    (hv : m.verify f = .ok ()) (ht : Tidy m f) (he : (m.func f).entryBlock? = some e)
    (ha : a ∈ Promotion.candidates m f) :
    let p := Promotion.placement m f
    let log := (Promotion.record m f).2
    Promotion.run m f (m.dominators f) = Promotion.outcome m f (Promotion.record m f).1 ∧
    IsLeast (Promotion.joinSets m f e a) {b | b ∈ (m.func f).layout ∧ p.phisFor a b ≠ []} ∧
    (∀ b ∈ (m.func f).layout, (p.phisFor a b).length ≤ 1) ∧
    (log.map (·.1)).Nodup ∧ (∀ b, b ∈ log.map (·.1) ↔ m.Reaches e b) ∧
    ∀ b, m.Reaches e b → b ≠ e → p.phisFor a b = [] → ∃ c W, (m.dominators f).idom? m b = some c ∧
      (c,W) ∈ log ∧
      ∀ q ∈ m.preds b, ∀ V, (q,V) ∈ log → V.get a = W.get a := by
  intro p log
  have hF := ht.shaped hv he
  have hG := hF.toFlowGraph
  obtain ⟨D,h,hj,_⟩ := Promotion.placement_spec ht.mirror hF (ht.instrs_nodup hv)
  have hset : {b | b ∈ (m.func f).layout ∧ p.phisFor a b ≠ []} = {b | D.HasPhi a b} := by
    ext b
    refine ⟨fun hb => (h.phisFor_ne_nil_iff hF hb.1).mp hb.2,fun hb => ?_⟩
    obtain ⟨c,hc⟩ := h.home b fun hnil => by
      obtain ⟨q,hq,_⟩ := hb
      rw [hnil] at hq
      cases hq
    have hbl := (hG.of_mem_frontier hc).1
    exact ⟨hbl,(h.phisFor_ne_nil_iff hF hbl).mpr hb⟩
  have hdirect : Promotion.Direct (Promotion.namesOf m f) p.module :=
    h.direct hF ht.mirror fun x => by simp [Promotion.namesOf,Promotion.get_tracked]
  have hempty : Promotion.Values.Plain (Promotion.namesOf m f) .empty := by
    intro x v hx
    rw [Table.get_empty] at hx
    cases hx
  obtain ⟨-,log',hlog,hr⟩ :=
    Promotion.Recorded.renameRecorded (a := a) hG hdirect (m.blockCount + 1)
    (s := (⟨p.module,[]⟩,[])) ⟨h.drafted.mirror,fun _ => rfl,fun _ => rfl,fun _ _ => Or.inl rfl⟩
      hempty hG.entry_number_lt
  have hlog : log = log' := by
    show (Promotion.record m f).2 = _
    rw [Promotion.record,he]
    exact hlog
  rw [← hlog] at hr
  have hmem : ∀ b, b ∈ log.map (·.1) ↔ m.Reaches e b := fun b => by simp [hr.mem,hG.above_entry_iff]
  have hdef : (m.func f).isDeclaration = false :=
    isEmpty_eq_false_iff.mpr (ne_nil_of_mem (mem_of_mem_head? he))
  refine ⟨Promotion.run_eq_outcome hdef (ne_nil_of_mem ha),hset ▸ hj a ha,
    fun b hb => h.length_phisFor_le hF hb,hr.nodup,hmem,fun b hb hbe hphi => ?_⟩
  obtain ⟨c,hc,hcb⟩ := hG.exists_idom? hb hbe
  rw [hG.idom?_eq,if_neg hbe] at hc
  obtain ⟨⟨c',W⟩,hW,rfl⟩ := List.mem_map.mp ((hmem c).mpr (hcb.dominates.reaches hb))
  have hno : ¬D.HasPhi a b := fun hp => (h.phisFor_ne_nil_iff hF (hG.mem_layout hb)).mpr hp hphi
  refine ⟨c',W,by rw [hG.idom?_eq,if_neg hbe,hc],hW,fun q hq V hV => ?_⟩
  have hqr := (hmem q).mp (List.mem_map.mpr ⟨_,hV,rfl⟩)
  have hbq := (hG.mirrored q (hG.mem_layout hqr) b (hG.mem_layout hb)).mp hq
  refine hr.get_eq hG hbe hc hqr hbq (fun x hx hfront i hi hassign => hno ?_)
    (hG.isDominatorTree.pred b c' q hc hbe hqr hbq) .refl hV hW
  rcases h.assigns hF (hG.mem_layout hx) hi rfl hassign with hp | hst
  · exact (hj a ha).1.2 x hp b hfront
  · exact (hj a ha).1.1 x hx hst b hfront

theorem phi_placement_exact_halfWritten : halfWritten.verify 0 = .ok () ∧ Tidy halfWritten 0 ∧
    (Promotion.placement halfWritten 0).phisFor 0 ⟨0,3⟩ = [7] ∧
    (Promotion.placement halfWritten 0).phisFor 0 ⟨0,2⟩ = [] ∧
    IsLeast (Promotion.joinSets halfWritten 0 ⟨0,0⟩ 0)
      {b | b ∈ (halfWritten.func 0).layout ∧ (Promotion.placement halfWritten 0).phisFor 0 b ≠ []} ∧
    ∃ c W, (halfWritten.dominators 0).idom? halfWritten ⟨0,2⟩ = some c ∧
      (c,W) ∈ (Promotion.record halfWritten 0).2 ∧
      ∀ q ∈ halfWritten.preds ⟨0,2⟩, ∀ V, (q,V) ∈ (Promotion.record halfWritten 0).2 →
        V.get 0 = W.get 0 := by
  have hv : halfWritten.verify 0 = .ok () := rfl
  have ht : Tidy halfWritten 0 := ⟨halfWritten_mirror,by decide,by decide,by decide⟩
  obtain ⟨-,hleast,-,-,-,hsame⟩ := phi_placement_exact (a := 0) hv ht rfl (by decide)
  have hphi : (Promotion.placement halfWritten 0).phisFor 0 ⟨0,2⟩ = [] := by decide +kernel
  exact ⟨hv,ht,by decide +kernel,hphi,hleast,
    hsame ⟨0,2⟩ (.step (.refl halfWritten ⟨0,0⟩) (by decide)) (by decide) hphi⟩

end CMinusF
