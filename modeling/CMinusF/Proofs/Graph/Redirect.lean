import CMinusF.Graph.Redirect
import CMinusF.Proofs.Flow.Control

/-! What sending a branch elsewhere does to the code and the edges. -/
namespace CMinusF.Module
variable (m : Module)

/-! Edges. -/

theorem succs_modifyBlock (b : BlockId) (h : Block → Block) (d : BlockId) :
    (m.modifyBlock b h).succs d = if d = b then (h (m.block b)).succs else m.succs d := by
  rw [succs,block_modifyBlock]
  by_cases hd : d = b
  · rw [if_pos hd.symm,if_pos hd]
  · rw [if_neg (Ne.symm hd),if_neg hd]
    rfl

theorem preds_modifyBlock (b : BlockId) (h : Block → Block) (d : BlockId) :
    (m.modifyBlock b h).preds d = if d = b then (h (m.block b)).preds else m.preds d := by
  rw [preds,block_modifyBlock]
  by_cases hd : d = b
  · rw [if_pos hd.symm,if_pos hd]
  · rw [if_neg (Ne.symm hd),if_neg hd]
    rfl

/-- One block gets other successors, then one gets other predecessors. -/
theorem succs_relink (b c : BlockId) (g : List BlockId → List BlockId) (d : BlockId)
    {h k : Block → Block} (hh : ∀ x, (h x).succs = g x.succs) (hk : ∀ x, (k x).succs = x.succs) :
    ((m.modifyBlock b h).modifyBlock c k).succs d = if d = b then g (m.succs b) else m.succs d := by
  have hd : ((m.modifyBlock b h).modifyBlock c k).succs d = (m.modifyBlock b h).succs d := by
    rw [succs_modifyBlock,hk]
    split
    · rename_i hd
      rw [hd,succs]
    · rfl
  rw [hd,succs_modifyBlock,hh]
  rfl

theorem preds_relink (b c : BlockId) (g : List BlockId → List BlockId) (d : BlockId)
    {h k : Block → Block} (hh : ∀ x, (h x).preds = x.preds) (hk : ∀ x, (k x).preds = g x.preds) :
    ((m.modifyBlock b h).modifyBlock c k).preds d = if d = c then g (m.preds c) else m.preds d := by
  have hd : ∀ d, (m.modifyBlock b h).preds d = m.preds d := by
    intro d
    rw [preds_modifyBlock,hh]
    split
    · rename_i hd
      rw [hd,preds]
    · rfl
  rw [preds_modifyBlock,hk,hd,← hd c]
  rfl

theorem succs_addEdge (b c d : BlockId) : (m.addEdge b c).succs d = if d = b
    then addTo (m.succs b) c else m.succs d := by
  refine m.succs_relink b c (addTo · c) d ?_ ?_ <;> exact fun _ => rfl

theorem preds_addEdge (b c d : BlockId) : (m.addEdge b c).preds d = if d = c
    then addTo (m.preds c) b else m.preds d := by
  refine m.preds_relink b c (addTo · b) d ?_ ?_ <;> exact fun _ => rfl

theorem succs_removeEdge (b c d : BlockId) : (m.removeEdge b c).succs d = if d = b
    then (m.succs b).filter (· ≠ c) else m.succs d := by
  refine m.succs_relink b c (List.filter (· ≠ c)) d ?_ ?_ <;> exact fun _ => rfl

theorem preds_removeEdge (b c d : BlockId) : (m.removeEdge b c).preds d = if d = c
    then (m.preds c).filter (· ≠ b) else m.preds d := by
  refine m.preds_relink b c (List.filter (· ≠ b)) d ?_ ?_ <;> exact fun _ => rfl

/-- Everything but the edges is as it was. -/
structure SameLines (m n : Module) : Prop extends SameContext m n where
  instr : n.code.instr = m.code.instr
  instrs : ∀ d, (n.block d).instrs = (m.block d).instrs
  func : n.code.func = m.code.func

theorem SameLines.trans {m n k : Module} (h : SameLines m n) (h' : SameLines n k) : SameLines m k :=
  ⟨⟨h'.context.trans h.context⟩,h'.instr.trans h.instr,fun d => (h'.instrs d).trans (h.instrs d),
    h'.func.trans h.func⟩

theorem sameLines_modifyBlock (b : BlockId) (h k : Block → Block) (hk : ∀ x, (h x).bare = k x.bare)
    (hi : ∀ x, (h x).instrs = x.instrs) : SameLines m (m.modifyBlock b h) := by
  have hcode := code_modifyBlock m b h k hk
  refine ⟨⟨by rw [hcode]; rfl⟩,by rw [hcode]; rfl,fun d => ?_,by rw [hcode]; rfl⟩
  rw [block_modifyBlock]
  split
  · rename_i hd
    rw [hi,hd]
  · rfl

theorem sameLines_addEdge (b c : BlockId) : SameLines m (m.addEdge b c) :=
  (sameLines_modifyBlock m b (fun x => { x with succs := addTo x.succs c })
    (fun x => { x with succs := addTo x.succs c })
    (fun _ => rfl) fun _ => rfl).trans
      (sameLines_modifyBlock _ c (fun x => { x with preds := addTo x.preds b })
    (fun x => { x with preds := addTo x.preds b }) (fun _ => rfl) fun _ => rfl)

theorem sameLines_removeEdge (b c : BlockId) : SameLines m (m.removeEdge b c) :=
  (sameLines_modifyBlock m b (fun x => { x with succs := x.succs.filter (· ≠ c) })
    (fun x => { x with succs := x.succs.filter (· ≠ c) }) (fun _ => rfl) fun _ => rfl).trans
    (sameLines_modifyBlock _ c (fun x => { x with preds := x.preds.filter (· ≠ b) })
    (fun x => { x with preds := x.preds.filter (· ≠ b) }) (fun _ => rfl) fun _ => rfl)

theorem Mirror.removeEdge {m : Module} (h : m.Mirror) (b c : BlockId) :
    (m.removeEdge b c).Mirror := by
  have hu : ∀ v, (m.removeEdge b c).uses v = m.uses v := fun v => by
    rw [Module.removeEdge,uses_modifyBlock
      (m.modifyBlock b fun x => { x with succs := x.succs.filter (· ≠ c) }) c
      (fun x => { x with preds := x.preds.filter (· ≠ b) }) (fun _ => rfl),
      uses_modifyBlock m b (fun x => { x with succs := x.succs.filter (· ≠ c) }) fun _ => rfl]
  intro v hv u
  rw [hu,operands_eq_code,(sameLines_removeEdge m b c).instr]
  exact h v hv u

theorem sizes_removeEdge {b c : BlockId} (hb : m.Made b) (hc : m.Made c) :
    (m.removeEdge b c).sizes = m.sizes := by
  have h := sizes_modifyBlock m hb fun x => { x with succs := x.succs.filter (· ≠ c) }
  rw [removeEdge,sizes_modifyBlock _
    (Nat.lt_of_lt_of_eq hc (congrFun (congrArg Sizes.blocks h) c.func).symm),h]

/-! Operands. -/

theorem sizes_setOperand {i : InstrId} (hi : i < m.instrTable.size) (n : Nat) {v : Operand}
    (hold : m.sizes.Known (m.operand i n)) (hv : m.sizes.Known v) :
    (m.setOperand i n v).sizes = m.sizes := by
  have h1 : (m.removeUse (m.operand i n) i).sizes = m.sizes := sizes_modifyUses m hold _
  have h2 := sizes_modifyInstr (m.removeUse (m.operand i n) i)
    (Nat.lt_of_lt_of_eq hi (congrArg Sizes.instrs h1).symm) fun x =>
      { x with operands := x.operands.set n v }
  rw [setOperand,addUse,sizes_modifyUses _ (by rw [h2,h1]; exact hv),h2,h1]

theorem sizes_replaceIn {i : InstrId} (hi : i < m.instrTable.size) {old new : Operand}
    (hold : m.sizes.Known old) (hnew : m.sizes.Known new) :
    (m.replaceIn i old new).sizes = m.sizes := by
  have key : ∀ (l : List Nat) (n : Module), n.sizes = m.sizes →
      (l.foldl (fun n k => if n.operand i k = old then n.setOperand i k new else n) n).sizes =
        m.sizes := by
    intro l
    induction l with
    | nil => exact fun _ h => h
    | cons k l ih =>
      intro n hn
      refine ih _ ?_
      dsimp only
      split
      · rename_i ho
        rw [sizes_setOperand n (Nat.lt_of_lt_of_eq hi (congrArg Sizes.instrs hn).symm) k
          (by rw [ho,hn]; exact hold)
          (by rw [hn]; exact hnew),hn]
      · exact hn
  exact key _ m rfl

/-! Branches. -/

/-- What is seen of a module after the branch `t` at the end of `b` has been sent to `pre` wherever
it went to `h`. -/
structure Redirected (m n : Module) (b h pre : BlockId) (t : InstrId) :
    Prop extends SameContext m n where
  instr : n.code.instr =
    (m.code.setOperands t ((m.operands t).map (Operand.replace (.block h) (.block pre)))).instr
  instrs : ∀ d, (n.block d).instrs = (m.block d).instrs
  succs : ∀ d, n.succs d = if d = b then addTo ((m.succs b).filter (· ≠ h)) pre else m.succs d
  preds : ∀ d, n.preds d = if d = pre then addTo (m.preds pre) b else if d = h
    then (m.preds h).filter (· ≠ b) else m.preds d
  func : n.code.func = m.code.func
  sizes : n.sizes = m.sizes
  mirror : m.Mirror → n.Mirror

variable {m}

theorem exists_redirect {b h pre : BlockId} {t : InstrId} (ht : m.Ends b t) (hh : h ∈ m.targets t)
    (hne : h ≠ pre) (hmb : m.Made b) (hmh : m.Made h) (hmp : m.Made pre) :
    ∃ n, m.redirect b h pre = .ok n ∧ Redirected m n b h pre t := by
  obtain ⟨hop,hm⟩ := mem_targets.mp hh
  have hlt : t < m.instrTable.size := lt_size_of_ne fun hd => by
    have := ht.parent
    rw [hd] at this
    cases this
  have hcode := code_replaceIn m t (.block h) (.block pre)
  have hs1 : (m.replaceIn t (.block h) (.block pre)).sizes = m.sizes :=
    sizes_replaceIn m hlt hmh hmp
  have hmir : m.Mirror → (m.replaceIn t (.block h) (.block pre)).Mirror :=
    fun hm => hm.replaceIn t _ _
  refine ⟨((m.replaceIn t (.block h) (.block pre)).removeEdge b h).addEdge b pre,?_,?_⟩
  · rw [redirect,ht.terminator?,Option.filter_some,if_pos (decide_eq_true hop)]
    exact if_pos hm
  · generalize m.replaceIn t (.block h) (.block pre) = k at *
    have hblock : ∀ d, k.code.block d = m.code.block d := fun d => by rw [hcode]; rfl
    have hsuccs : ∀ d, k.succs d = m.succs d := fun d => (lists_of_code (hblock d)).2.1
    have hpreds : ∀ d, k.preds d = m.preds d := fun d => (lists_of_code (hblock d)).2.2
    have hmade : ∀ {c}, m.Made c → k.Made c := fun hc => hc.of_blocks (congrArg Sizes.blocks hs1)
    have hs2 := sizes_removeEdge k (hmade hmb) (hmade hmh)
    have hmade2 : ∀ {c}, m.Made c → (k.removeEdge b h).Made c := fun hc =>
      (hmade hc).of_blocks (congrArg Sizes.blocks hs2)
    have hlines := (sameLines_removeEdge k b h).trans (sameLines_addEdge _ b pre)
    refine ⟨⟨by rw [hlines.context,hcode]; rfl⟩,by rw [hlines.instr,hcode],
      fun d => (hlines.instrs d).trans ?_,fun d => ?_,fun d => ?_,by rw [hlines.func,hcode]; rfl,
      ((sizes_addEdge _ (hmade2 hmb) (hmade2 hmp)).trans hs2).trans hs1,
      fun hm => ((hmir hm).removeEdge b h).addEdge b pre⟩
    · rw [instrs_eq_code,hblock]
      rfl
    · rw [succs_addEdge,succs_removeEdge,succs_removeEdge,if_pos rfl,hsuccs,hsuccs]
      split <;> rfl
    · rw [preds_addEdge,preds_removeEdge,preds_removeEdge,if_neg hne.symm,hpreds,hpreds,hpreds]

end CMinusF.Module
