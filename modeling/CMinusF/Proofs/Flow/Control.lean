import CMinusF.Proofs.Flow.Dominators
import CMinusF.Proofs.Graph.WellFormed
import CMinusF.Proofs.Graph.Building

/-! Control flow: the edges of a function and the branches that stand for them, and the edits that
leave both alone. -/
namespace CMinusF
open List
variable {m n : Module} {b e : BlockId} {t u i : InstrId} {f : FuncId}

namespace Module

/-- The instruction a block ends with, the only one that leaves the block. -/
structure Ends (m : Module) (b : BlockId) (t : InstrId) : Prop where
  last : ∃ is, (m.block b).instrs = is ++ [t] ∧ ∀ i ∈ is, (m.instr i).op.isTerminator = false
  leaves : (m.instr t).op.isTerminator = true
  parent : (m.instr t).parent = some b

theorem Ends.terminator? (h : m.Ends b t) : m.terminator? b = some t := by
  obtain ⟨is,his,_⟩ := h.last
  rw [Module.terminator?,his,getLast?_append]
  exact Option.filter_eq_some_iff.mpr ⟨rfl,h.leaves⟩

theorem Ends.unique (h : m.Ends b t) (h' : m.Ends b u) : t = u :=
  Option.some.inj (h.terminator?.symm.trans h'.terminator?)

theorem Ends.post_eq_nil (h : m.Ends b t) {xs ys : List InstrId}
    (hs : (m.block b).instrs = xs ++ i :: ys) (hop : (m.instr i).op.isTerminator = true) :
    ys = [] := by
  obtain ⟨is,his,hlast⟩ := h.last
  rcases eq_nil_or_concat ys with rfl | ⟨ys,u,rfl⟩
  · rfl
  · rw [his,concat_eq_append,← cons_append,← append_assoc] at hs
    have hi : i ∈ is := (append_inj' hs rfl).1 ▸ by simp
    rw [hlast i hi] at hop
    cases hop

theorem ends_congr (hb : (n.block b).instrs = (m.block b).instrs)
    (hop : ∀ i, (n.instr i).op = (m.instr i).op)
    (hp : ∀ i, (n.instr i).parent = (m.instr i).parent) :
    n.Ends b t ↔ m.Ends b t := by
  constructor
  · rintro ⟨⟨is,his,hlast⟩,hleaves,hparent⟩
    exact ⟨⟨is,hb ▸ his,fun i hi => hop i ▸ hlast i hi⟩,hop t ▸ hleaves,hp t ▸ hparent⟩
  · rintro ⟨⟨is,his,hlast⟩,hleaves,hparent⟩
    exact ⟨⟨is,hb.trans his,fun i hi => (hop i).symm ▸ hlast i hi⟩,(hop t).symm ▸ hleaves,
      (hp t).trans hparent⟩

theorem Seated.ends_iff {l : List BlockId} (h : Seated m n f l) (b : BlockId) (t : InstrId) :
    n.Ends b t ↔ m.Ends b t := by
  refine ends_congr (h.lines b).1 (fun i => ?_) fun i => ?_
  · have := congrArg Instr.op (congrFun h.instr i)
    exact this
  · have := congrArg Instr.parent (congrFun h.instr i)
    exact this

def detach (m : Module) (i : InstrId) : Module :=
  match (m.instr i).parent with
  | some b => m.remove b i
  | none => m

theorem moveBefore_eq (m : Module) (i t : InstrId) : m.moveBefore i t =
    match ((m.detach i).instr t).parent with
    | some b => (m.detach i).insertAt b (((m.detach i).block b).instrs.idxOf t) i
    | none => m.detach i := rfl

end Module

open CMinusF.Module in
/-- A function that has been checked and whose blocks are all listed, once, is a graph of blocks. -/
theorem FlowGraph.of_verify (hv : m.verify f = .ok ())
    (he : (m.func f).layout.head? = some e) (hnd : (m.func f).layout.Nodup)
    (hlisted : ∀ n, n < (m.func f).blocks.size → (⟨f,n⟩ : BlockId) ∈ (m.func f).layout) :
    FlowGraph m f e := by
  have hcheck : ∀ b ∈ (m.func f).layout, m.BlockChecked f b := fun b hb => blockChecked hv hb
  have hmade : ∀ b : BlockId, b.func = f → m.block b ≠ default →
      b.number < (m.func f).blocks.size := by
    rintro ⟨g,n⟩ rfl hne
    refine Nat.not_le.mp fun hn => hne ?_
    rw [block,Table.get_of_size_le _ hn]
  refine ⟨he,fun b hb => (hcheck b hb).owned,hnd,fun b hb => ?_,fun b hb c hc => ?_,
    fun b hb c hc => ⟨(hcheck c hc).preds b,(hcheck b hb).succs c⟩⟩
  · obtain ⟨is,t,his,_⟩ := (hcheck b hb).terminator
    refine hmade b (hcheck b hb).owned fun hd => ?_
    rw [hd] at his
    exact absurd (his : [] = is ++ [t]).symm (append_ne_nil_of_right_ne_nil _ (cons_ne_nil _ _))
  · obtain ⟨is,t,his,_,htargets⟩ := (hcheck b hb).terminator
    obtain ⟨_,hop⟩ := mem_targets.mp ((htargets c).mpr hc)
    have hcf : c.func = f :=
      (operandDefect?_eq_none_iff.mp (((hcheck b hb).instr is t [] his).operand _ hop)).1
    have hp := (hcheck b hb).succs c hc
    have := hlisted c.number (hmade c hcf fun hd => by rw [preds,hd] at hp; cases hp)
    obtain ⟨g,n⟩ := c
    exact hcf ▸ this

/-- The edges of a function come from its own blocks, and each is an arm of the branch at the end of
one. -/
structure ControlFlow (m : Module) (f : FuncId) (e : BlockId) : Prop extends FlowGraph m f e where
  inward : ∀ b ∈ (m.func f).layout, ∀ p ∈ m.preds b, p ∈ (m.func f).layout
  preds_nodup : ∀ b ∈ (m.func f).layout, (m.preds b).Nodup
  ends : ∀ b ∈ (m.func f).layout, ∃ t, m.Ends b t ∧ ∀ c, c ∈ m.targets t ↔ c ∈ m.succs b

namespace ControlFlow
open CMinusF.Module

theorem of_verify (hv : m.verify f = .ok ()) (he : (m.func f).layout.head? = some e)
    (hnd : (m.func f).layout.Nodup)
    (hlisted : ∀ n, n < (m.func f).blocks.size → (⟨f,n⟩ : BlockId) ∈ (m.func f).layout)
    (hin : ∀ b ∈ (m.func f).layout, ∀ p ∈ m.preds b, p ∈ (m.func f).layout)
    (hpn : ∀ b ∈ (m.func f).layout, (m.preds b).Nodup) : ControlFlow m f e := by
  refine ⟨.of_verify hv he hnd hlisted,hin,hpn,fun b hb => ?_⟩
  have hcheck := blockChecked hv hb
  obtain ⟨is,t,his,ht,htargets⟩ := hcheck.terminator
  refine ⟨t,⟨⟨is,his,fun i hi => ?_⟩,ht,(hcheck.instr is t [] his).parent⟩,htargets⟩
  obtain ⟨pre,post,rfl⟩ := append_of_mem hi
  refine eq_false_of_ne_true fun hop => ?_
  have := (hcheck.instr pre i (post ++ [t]) (by simp [his])).last hop
  simp at this

theorem mem_preds_iff (h : ControlFlow m f e) {p : BlockId} (hb : b ∈ (m.func f).layout) :
    p ∈ m.preds b ↔ p ∈ (m.func f).layout ∧ b ∈ m.succs p := by
  constructor
  · intro hp
    have hpl := h.inward b hb p hp
    exact ⟨hpl,(h.mirrored p hpl b hb).mp hp⟩
  · rintro ⟨hpl,hs⟩
    exact (h.mirrored p hpl b hb).mpr hs

theorem verify (h : ControlFlow m f e)
    (hi : ∀ b ∈ (m.func f).layout, ∀ pre i post, (m.block b).instrs = pre ++ i :: post →
      m.Checked f b pre i post) :
    m.verify f = .ok () := by
  refine verify_of_blockChecked fun b hb =>
    ⟨h.owned b hb,hi b hb,?_,fun c hc => ?_,fun c hc => ((h.mem_preds_iff hb).mp hc).2⟩
  · obtain ⟨t,ht,htargets⟩ := h.ends b hb
    obtain ⟨is,his,_⟩ := ht.last
    exact ⟨is,t,his,ht.leaves,htargets⟩
  · exact (h.mirrored b hb c (h.closed b hb c hc)).mpr hc

end ControlFlow

/-- A module whose functions and blocks are all listed, once, and whose blocks list their
predecessors once. -/
structure Wired (m : Module) : Prop where
  funcs : ∀ f, f < m.funcTable.size → f ∈ m.funcs
  listed : ∀ f ∈ m.funcs, ∀ n, n < (m.func f).blocks.size → (⟨f,n⟩ : BlockId) ∈ (m.func f).layout
  layout_nodup : ∀ f ∈ m.funcs, (m.func f).layout.Nodup
  preds_nodup : ∀ f ∈ m.funcs, ∀ b ∈ (m.func f).layout, (m.preds b).Nodup

namespace Wired
open CMinusF.Module

theorem mem_layout (h : Wired m) (hb : m.succs b ≠ []) :
    b.func ∈ m.funcs ∧ b ∈ (m.func b.func).layout := by
  obtain ⟨g,k⟩ := b
  have hk : k < (m.func g).blocks.size := by
    refine Nat.not_le.mp fun hk => hb ?_
    rw [succs,block,Table.get_of_size_le _ hk]
    rfl
  have hg : g ∈ m.funcs := by
    refine h.funcs g (Nat.not_le.mp fun hg => ?_)
    rw [func,Table.get_of_size_le _ hg] at hk
    exact Nat.not_lt_zero k hk
  exact ⟨hg,h.listed g hg k hk⟩

/-- No edge leads from one function into another: the branches of both have been checked. -/
theorem controlFlow (h : Wired m) (hv : ∀ g ∈ m.funcs, m.verify g = .ok ()) (hf : f ∈ m.funcs)
    (he : (m.func f).layout.head? = some e) : ControlFlow m f e := by
  refine .of_verify (hv f hf) he (h.layout_nodup f hf) (h.listed f hf) (fun b hb p hp => ?_)
    (h.preds_nodup f hf)
  have hs := (blockChecked (hv f hf) hb).preds p hp
  obtain ⟨hg,hpl⟩ := h.mem_layout (ne_nil_of_mem hs)
  have hcheck := blockChecked (hv _ hg) hpl
  obtain ⟨is,t,his,_,htargets⟩ := hcheck.terminator
  obtain ⟨_,hop⟩ := mem_targets.mp ((htargets b).mpr hs)
  have hbp : b.func = p.func :=
    (operandDefect?_eq_none_iff.mp ((hcheck.instr is t [] his).operand _ hop)).1
  rwa [← hbp,(blockChecked (hv f hf) hb).owned] at hpl

end Wired

/-! Edits that leave the control flow alone. -/

/-- The same layouts and edges, and blocks that end in the same branches. -/
structure SameFlow (m n : Module) : Prop where
  layout : ∀ f, (n.func f).layout = (m.func f).layout
  sized : ∀ f, (m.func f).blocks.size ≤ (n.func f).blocks.size
  succs : ∀ b, n.succs b = m.succs b
  preds : ∀ b, n.preds b = m.preds b
  ends : ∀ b t, m.Ends b t → n.Ends b t ∧ n.code.instr t = m.code.instr t
  plain : ∀ i, (m.instr i).op.isTerminator = false → (n.instr i).op.isTerminator = false

namespace SameFlow
open CMinusF.Module
variable {k : Module}

theorem refl (m : Module) : SameFlow m m :=
  ⟨fun _ => rfl,fun _ => Nat.le_refl _,fun _ => rfl,fun _ => rfl,fun _ _ h => ⟨h,rfl⟩,fun _ h => h⟩

theorem trans (h : SameFlow m n) (h' : SameFlow n k) : SameFlow m k where
  layout f := (h'.layout f).trans (h.layout f)
  sized f := Nat.le_trans (h.sized f) (h'.sized f)
  succs b := (h'.succs b).trans (h.succs b)
  preds b := (h'.preds b).trans (h.preds b)
  ends b t ht := by
    obtain ⟨h1,h2⟩ := h.ends b t ht
    obtain ⟨h3,h4⟩ := h'.ends b t h1
    exact ⟨h3,h4.trans h2⟩
  plain i hi := h'.plain i (h.plain i hi)

theorem foldl {α : Type} {g : Module → α → Module} {l : List α} (m : Module)
    (h : ∀ n, SameFlow m n → ∀ a ∈ l, SameFlow n (g n a)) : SameFlow m (l.foldl g m) := by
  induction l generalizing m with
  | nil => exact refl m
  | cons a l ih =>
    have ha := h m (refl m) a mem_cons_self
    exact ha.trans (ih _ fun n hn b hb => h n (ha.trans hn) b (mem_cons_of_mem _ hb))

theorem controlFlow (h : SameFlow m n) (hm : ControlFlow m f e) : ControlFlow n f e := by
  have hl := h.layout f
  refine ⟨⟨?_,?_,?_,?_,?_,?_⟩,?_,?_,?_⟩ <;> simp only [hl,h.succs,h.preds]
  · exact hm.entry
  · exact hm.owned
  · exact hm.nodup
  · exact fun b hb => Nat.lt_of_lt_of_le (hm.sized b hb) (h.sized f)
  · exact hm.closed
  · exact hm.mirrored
  · exact hm.inward
  · exact hm.preds_nodup
  · intro b hb
    obtain ⟨t,ht,htargets⟩ := hm.ends b hb
    obtain ⟨h1,h2⟩ := h.ends b t ht
    exact ⟨t,h1,by rw [targets_congr h2]; exact htargets⟩

/-- Only the code matters, and it may change inside instructions that do not leave their block. -/
theorem of_code (hf : ∀ f, (n.func f).layout = (m.func f).layout)
    (hs : ∀ f, (m.func f).blocks.size ≤ (n.func f).blocks.size) (hb : n.code.block = m.code.block)
    (hop : ∀ j, (m.instr j).op.isTerminator = false → (n.instr j).op.isTerminator = false)
    (hi : ∀ j, (m.instr j).op.isTerminator = true → (m.instr j).parent ≠ none →
      n.code.instr j = m.code.instr j) :
    SameFlow m n where
  layout := hf
  sized := hs
  succs b := (lists_of_code (congrFun hb b)).2.1
  preds b := (lists_of_code (congrFun hb b)).2.2
  ends b t ht := by
    obtain ⟨⟨is,his,hlast⟩,hleaves,hparent⟩ := ht
    have hinstrs : (n.block b).instrs = (m.block b).instrs := by rw [instrs_eq_code,hb]; rfl
    have ht := hi t hleaves (by simp [hparent])
    have hop' : (n.instr t).op = (m.instr t).op := by rw [op_eq_code,ht]; rfl
    refine ⟨⟨⟨is,hinstrs.trans his,fun j hj => hop j (hlast j hj)⟩,hop'.symm ▸ hleaves,?_⟩,ht⟩
    have := congrArg Instr.parent ht
    exact this.trans hparent
  plain := hop

/-! Primitive edits. -/

variable (m : Module)

theorem blocks_modifyUses_le (v : Operand) (h : List InstrId → List InstrId) (f : FuncId) :
    (m.func f).blocks.size ≤ ((m.modifyUses v h).func f).blocks.size := by
  have hfunc : ∀ (g : FuncId) (k : Func → Func), (∀ x, x.blocks.size ≤ (k x).blocks.size) →
      (m.func f).blocks.size ≤ ((m.modifyFunc g k).func f).blocks.size := by
    intro g k hk
    rw [func_modifyFunc]
    grind
  cases v with
  | arg g i =>
    exact hfunc g (fun x => { x with argUses := x.argUses.modify i h }) fun _ => Nat.le_refl _
  | func g => exact hfunc g (fun x => { x with uses := h x.uses }) fun _ => Nat.le_refl _
  | block b =>
    refine hfunc b.func
      (fun x => { x with blocks := x.blocks.modify b.number fun x =>
      { x with uses := h x.uses } }) fun x => ?_
    rw [Table.size_modify]
    exact Nat.le_max_left _ _
  | _ => exact Nat.le_refl _

theorem modifyUses (v : Operand) (h : List InstrId → List InstrId) :
    SameFlow m (m.modifyUses v h) := by
  have hcode := code_modifyUses m v h
  refine of_code (fun f => ?_) (blocks_modifyUses_le m v h) (by rw [hcode])
    (fun j hj => ?_) fun j _ _ => by
    rw [hcode]
  · have := congrArg Func.layout (congrFun (congrArg Code.func hcode) f)
    exact this
  · rw [op_eq_code,hcode]
    exact hj

theorem addUses (vs : List Operand) (i : InstrId) :
    SameFlow m (vs.foldl (fun m v => m.addUse v i) m) :=
  foldl m fun n _ v _ => modifyUses n v _

/-- An instruction that does not leave its block may change, as long as it stays one of its kind. -/
theorem modifyInstr (i : InstrId) (h : Instr → Instr) (hi : (m.instr i).op.isTerminator = false)
    (hk : ∀ x, (h x).op = x.op) : SameFlow m (m.modifyInstr i h) := by
  refine of_code (fun _ => rfl) (fun _ => Nat.le_refl _) rfl (fun j hj => ?_) fun j hj _ => ?_
  · rw [instr_modifyInstr]
    split
    · rw [hk]
      exact hi
    · exact hj
  · have hij : i ≠ j := by
      rintro rfl
      rw [hi] at hj
      cases hj
    simp only [code,instr_modifyInstr,if_neg hij]

theorem addIncoming (p : InstrId) (v : Operand) (b : BlockId)
    (hp : (m.instr p).op.isTerminator = false) :
    SameFlow m (m.addIncoming p v b) :=
  ((modifyInstr m p (fun x => { x with operands := x.operands ++ [v,.block b] }) hp
    fun _ => rfl).trans
    (modifyUses _ v (· ++ [p]))).trans (modifyUses _ (.block b) (· ++ [p]))

theorem removeIncoming (p : InstrId) (b : BlockId) (hp : (m.instr p).op.isTerminator = false) :
    SameFlow m (m.removeIncoming p b) := by
  rw [Module.removeIncoming]
  split
  · exact refl m
  · rename_i v _
    have hop : (((m.removeUse v p).removeUse (.block b) p).instr p).op.isTerminator = false := by
      simp only [op_eq_code,code_removeUse]
      exact hp
    exact ((modifyUses m v (·.erase p)).trans (modifyUses _ (.block b) (·.erase p))).trans
      (modifyInstr _ p (fun x => { x with operands := dropPair b x.operands }) hop fun _ => rfl)

theorem modifyBlock (b : BlockId) (h : Block → Block) (hs : ∀ x, (h x).succs = x.succs)
    (hp : ∀ x, (h x).preds = x.preds)
    (hi : ∀ t is, (m.block b).instrs = is ++ [t] → (m.instr t).op.isTerminator = true →
      (∀ i ∈ is, (m.instr i).op.isTerminator = false) →
      ∃ js, (h (m.block b)).instrs = js ++ [t] ∧ ∀ j ∈ js, (m.instr j).op.isTerminator = false) :
    SameFlow m (m.modifyBlock b h) where
  layout f := by
    rw [func_modifyBlock]
    split <;> rfl
  sized f := by
    rw [func_modifyBlock]
    split
    · rw [Table.size_modify]
      exact Nat.le_max_left _ _
    · exact Nat.le_refl _
  succs c := by
    rw [Module.succs,block_modifyBlock]
    split
    · rename_i hc
      rw [hs,hc]
      rfl
    · rfl
  preds c := by
    rw [Module.preds,block_modifyBlock]
    split
    · rename_i hc
      rw [hp,hc]
      rfl
    · rfl
  ends c t ht := by
    obtain ⟨⟨is,his,hlast⟩,hleaves,hparent⟩ := ht
    refine ⟨⟨?_,hleaves,hparent⟩,rfl⟩
    rw [block_modifyBlock]
    split
    · rename_i hc
      subst hc
      exact hi t is his hleaves hlast
    · exact ⟨is,his,hlast⟩
  plain _ h := h

theorem remove (b : BlockId) (i : InstrId) (hi : (m.instr i).op.isTerminator = false) :
    SameFlow m (m.remove b i) := by
  rw [Module.remove]
  split
  · refine (modifyBlock m b (fun x => { x with instrs := x.instrs.erase i }) (fun _ => rfl)
      (fun _ => rfl)
      fun t is his ht hlast => ?_).trans
        (modifyInstr _ i (fun x => { x with parent := none }) hi fun _ => rfl)
    have hit : i ≠ t := by
      rintro rfl
      rw [hi] at ht
      cases ht
    refine ⟨is.erase i,?_,fun j hj => hlast j (mem_of_mem_erase hj)⟩
    simp only [his]
    by_cases hm : i ∈ is
    · exact erase_append_left _ hm
    · rw [erase_append_right _ hm,erase_of_not_mem hm,erase_of_not_mem (by simpa using hit)]
  · exact refl m

/-- An instruction that does not leave the block gets a place in front of the end. -/
theorem insertAt (b : BlockId) (k : Nat) (i : InstrId) (hi : (m.instr i).op.isTerminator = false)
    (hk : k < (m.block b).instrs.length) : SameFlow m (m.insertAt b k i) := by
  have h1 := modifyInstr m i (fun x => { x with parent := some b }) hi fun _ => rfl
  refine h1.trans
    (modifyBlock _ b (fun x => { x with instrs := x.instrs.take k ++ i :: x.instrs.drop k })
    (fun _ => rfl)
    (fun _ => rfl) fun t is his ht hlast => ?_)
  have hlen : (m.block b).instrs.length = is.length + 1 := by
    have : ((m.modifyInstr i fun x => { x with parent := some b }).block b).instrs =
      (m.block b).instrs := rfl
    rw [← this,his,length_append]
    rfl
  refine ⟨is.take k ++ i :: is.drop k,?_,fun j hj => ?_⟩
  · grind
  · rcases mem_append.mp hj with hj | hj
    · exact hlast j (mem_of_mem_take hj)
    · rcases mem_cons.mp hj with rfl | hj
      · rw [instr_modifyInstr,if_pos rfl]
        exact hi
      · exact hlast j (mem_of_mem_drop hj)

theorem makeInstr (f : FuncId) (op : Opcode) (t : Ty) (object : Option Ty) (vs : List Operand)
    (hop : op.isTerminator = false) : SameFlow m (m.makeInstr f op t object vs).1 := by
  have hfunc : ∀ g, ((m.counted f t).func g).layout = (m.func g).layout ∧
      ((m.counted f t).func g).blocks = (m.func g).blocks := by
    intro g
    unfold counted
    split
    · exact ⟨rfl,rfl⟩
    · rw [func_modifyFunc]
      grind
  have hpush := code_pushInstr (m.counted f t) (m.newInstr f op t object vs)
  rw [instrTable_counted] at hpush
  have hinstr : (m.counted f t).code.instr = m.code.instr := by
    rw [code_counted]
    split <;> rfl
  rw [makeInstr_fst]
  refine SameFlow.trans (of_code ?_ ?_ ?_ ?_ ?_) (addUses _ vs _)
  · exact fun g => (hfunc g).1
  · exact fun g => Nat.le_of_eq (congrArg Table.size (hfunc g).2).symm
  · rw [hpush,code_counted]
    split <;> rfl
  · intro j hj
    rw [op_eq_code,hpush,Code.setInstr,hinstr]
    dsimp only
    split
    · exact hop
    · exact hj
  · intro j _ hp
    have hj : j ≠ m.instrTable.size := by
      rintro rfl
      rw [get_instr_size] at hp
      exact hp rfl
    rw [hpush,Code.setInstr,hinstr]
    exact if_neg hj

theorem newPhi (b : BlockId) (t : Ty) (hu : m.Ends b u) : SameFlow m (m.newPhi b t).1 := by
  have h := makeInstr m b.func .phi t none [] rfl
  have hop : ((m.makeInstr b.func .phi t none []).1.instr m.instrTable.size).op = .phi := by
    rw [op_eq_code,code_makeInstr]
    exact congrArg Instr.op (if_pos rfl)
  change SameFlow m ((m.makeInstr b.func .phi t none []).1.insertAt b
    ((m.makeInstr b.func .phi t none []).1.phis b).length
    m.instrTable.size)
  generalize (m.makeInstr b.func .phi t none []).1 = n at *
  obtain ⟨⟨is,his,_⟩,hleaves,_⟩ := (h.ends b u hu).1
  refine h.trans (insertAt n b _ _ (by rw [hop]; rfl) ?_)
  have hphis : n.phis b <+: is ++ [u] := his ▸ takeWhile_prefix _
  rcases prefix_concat_iff.mp hphis with hall | hphis
  · -- the phis stop before the end
    have := op_of_mem_phis (hall ▸ mem_append_right _ mem_cons_self : u ∈ n.phis b)
    rw [this] at hleaves
    cases hleaves
  · grind

theorem detach (hi : (m.instr i).op.isTerminator = false) : SameFlow m (m.detach i) := by
  rw [Module.detach]
  split
  · exact remove m _ i hi
  · exact refl m

/-- Moving an instruction to the end of a block, in front of the branch. -/
theorem moveBefore (ht : m.Ends b t) (hi : (m.instr i).op.isTerminator = false) :
    SameFlow m (m.moveBefore i t) := by
  have h := detach m hi
  rw [moveBefore_eq]
  generalize m.detach i = n at h
  obtain ⟨⟨is,his,_⟩,_,hparent⟩ := (h.ends b t ht).1
  rw [hparent]
  exact h.trans (insertAt n b _ i (h.plain i hi) (idxOf_lt_length_of_mem (by simp [his])))

end SameFlow
end CMinusF
