import CMinusF.Proofs.Graph.Redirect

/-! Where instructions stand: each in the block it believes to be in, and nothing after one that
leaves the block. -/
namespace CMinusF.Module
open List
variable {i t j : InstrId} {c a : BlockId} {vs : List Operand} {before after : List InstrId}

def Branches (m : Module) (a b : BlockId) : Prop := ∃ t ∈ (m.block a).instrs, b ∈ m.targets t

/-- An instruction stands in the block it believes to be in, once, and nothing stands after one that
leaves the block. -/
structure Orderly (m : Module) : Prop where
  seated : ∀ b i, i ∈ (m.block b).instrs ↔ (m.instr i).parent = some b
  once : ∀ b, (m.block b).instrs.Nodup
  last : ∀ b xs i ys, (m.block b).instrs = xs ++ i :: ys →
    (m.instr i).op.isTerminator = true → ys = []

variable {m n : Module} {b : BlockId}

theorem isTerminator_of_mem_targets (h : c ∈ m.targets t) : (m.instr t).op.isTerminator = true := by
  rw [(mem_targets.mp h).1]
  rfl

theorem targets_of_br (h : (m.instr i).op = .br) :
    m.targets i = (m.operands i).filterMap blockOf? := by
  rw [targets,h]

namespace Orderly

theorem terminator_unique (h : Orderly m) (hi : i ∈ (m.block b).instrs)
    (hj : j ∈ (m.block b).instrs) (hti : (m.instr i).op.isTerminator = true)
    (htj : (m.instr j).op.isTerminator = true) : i = j := by
  obtain ⟨xs,ys,hs⟩ := append_of_mem hi
  have hys := h.last b xs i ys hs hti
  subst hys
  obtain hx | hx := mem_append.mp (hs ▸ hj)
  · -- what stands before `i` has `i` after it
    obtain ⟨us,vs,hu⟩ := append_of_mem hx
    have := h.last b us j (vs ++ [i]) (by rw [hs,hu]; simp) htj
    simp at this
  · exact (mem_singleton.mp hx).symm

theorem terminator?_iff (h : Orderly m) :
    m.terminator? b = some t ↔ t ∈ (m.block b).instrs ∧ (m.instr t).op.isTerminator = true := by
  rw [terminator?,Option.filter_eq_some_iff,getLast?_eq_some_iff]
  refine and_congr_left fun ht => ⟨by rintro ⟨xs,hs⟩; simp [hs],fun hm => ?_⟩
  obtain ⟨xs,ys,hs⟩ := append_of_mem hm
  exact ⟨xs,by rw [hs,h.last b xs t ys hs ht]⟩

theorem plain_of_not_isTerminated (h : Orderly m) (hb : m.isTerminated b = false)
    (hi : i ∈ (m.block b).instrs) :
    (m.instr i).op.isTerminator = false := by
  refine eq_false_of_ne_true fun ht => ?_
  rw [isTerminated,h.terminator?_iff.mpr ⟨hi,ht⟩] at hb
  cases hb

theorem branches_iff (h : Orderly m) :
    m.Branches a c ↔ ∃ t, m.terminator? a = some t ∧ c ∈ m.targets t := by
  refine exists_congr fun t => ?_
  rw [h.terminator?_iff,and_assoc]
  exact and_congr_right fun _ => ⟨fun ht => ⟨isTerminator_of_mem_targets ht,ht⟩,And.right⟩

theorem of_view (h : Orderly m) (hi : ∀ b, (n.block b).instrs = (m.block b).instrs)
    (hp : ∀ i, (n.instr i).parent = (m.instr i).parent)
    (hop : ∀ b, ∀ i ∈ (m.block b).instrs, (n.instr i).op = (m.instr i).op) : Orderly n where
  seated b i := by rw [hi,hp,h.seated]
  once b := by
    rw [hi]
    exact h.once b
  last b xs i ys hs ht := by
    rw [hi] at hs
    exact h.last b xs i ys hs (hop b i (hs ▸ by simp) ▸ ht)

end Orderly

theorem op_of_setOperands (hn : n.code = m.code.setOperands i vs) (j : InstrId) :
    (n.instr j).op = (m.instr j).op := by
  rw [op_eq_code,hn,Code.instr_setOperands]
  rfl

theorem parent_of_setOperands (hn : n.code = m.code.setOperands i vs) (j : InstrId) :
    (n.instr j).parent = (m.instr j).parent := by
  rw [parent_eq_code,hn,Code.instr_setOperands]
  rfl

theorem makeInstr_new (m : Module) (f : FuncId) (op : Opcode) (t : Ty) (object : Option Ty)
    (vs : List Operand) :
    ((m.makeInstr f op t object vs).1.instr m.instrTable.size).op = op ∧
      ((m.makeInstr f op t object vs).1.instr m.instrTable.size).parent = none ∧
      (m.makeInstr f op t object vs).1.operands m.instrTable.size = vs := by
  have h : (m.makeInstr f op t object vs).1.code.instr m.instrTable.size =
      m.newInstr f op t object vs := by
    rw [code_makeInstr]
    exact if_pos rfl
  exact ⟨congrArg Instr.op h,congrArg Instr.parent h,congrArg Instr.operands h⟩

theorem code_makeInstr_old (m : Module) (f : FuncId) (op : Opcode) (t : Ty) (object : Option Ty)
    (vs : List Operand) :
    (∀ j, j ≠ m.instrTable.size → (m.makeInstr f op t object vs).1.code.instr j = m.code.instr j) ∧
      ∀ b, (m.makeInstr f op t object vs).1.code.block b = m.code.block b := by
  rw [code_makeInstr,Code.setInstr,code_counted]
  refine ⟨fun j hj => ?_,fun b => ?_⟩
  · simp only [hj,↓reduceIte]
    split <;> rfl
  · dsimp only
    split <;> rfl

/-! Putting instructions into blocks and taking them out. -/

theorem lists_of_lines {xs : List InstrId}
    (hblock : ∀ c, n.code.block c = if b = c then { m.code.block b with instrs := xs }
      else m.code.block c) (c : BlockId) :
    (n.block c).instrs = (if c = b then xs else (m.block c).instrs) ∧ n.succs c = m.succs c ∧
    n.preds c = m.preds c := by
  have hlists := hblock c
  by_cases hc : b = c
  · subst hc
    rw [if_pos rfl] at hlists ⊢
    exact lists_of_code hlists
  · rw [if_neg hc] at hlists
    rw [if_neg (Ne.symm hc)]
    exact lists_of_code hlists

theorem parent_of_parents {p : Option BlockId}
    (hinstr : ∀ j, n.code.instr j = if i = j then { m.code.instr i with parent := p }
      else m.code.instr j) (j : InstrId) :
    (n.instr j).parent = if j = i then p else (m.instr j).parent := by
  rw [show (n.instr j).parent = (n.code.instr j).parent from rfl,hinstr]
  by_cases hj : j = i
  · rw [if_pos hj,if_pos hj.symm]
  · rw [if_neg hj,if_neg (Ne.symm hj)]
    rfl

/-- What is seen of a module after an instruction has been put between the lines of a block. -/
structure Placed (m n : Module) (b : BlockId) (i : InstrId)
    (before after : List InstrId) : Prop where
  op : ∀ j, (n.instr j).op = (m.instr j).op
  targets : ∀ j, n.targets j = m.targets j
  parent : ∀ j, (n.instr j).parent = if j = i then some b else (m.instr j).parent
  lines : (m.block b).instrs = before ++ after
  instrs : ∀ c, (n.block c).instrs = if c = b then before ++ i :: after else (m.block c).instrs
  succs : ∀ c, n.succs c = m.succs c
  preds : ∀ c, n.preds c = m.preds c

theorem Placed.of_code (hl : (m.block b).instrs = before ++ after) (k : Block → Block)
    (hk : k (m.code.block b) = { m.code.block b with instrs := before ++ i :: after })
    (hn : n.code = (m.code.modifyInstr i fun x => { x with parent := some b }).modifyBlock b k) :
    Placed m n b i before after := by
  have hinstr : ∀ j, n.code.instr j = if i = j then { m.code.instr i with parent := some b }
    else m.code.instr j :=
    fun j => by rw [hn]; rfl
  have hblock : ∀ c, n.code.block c = if b = c
      then { m.code.block b with instrs := before ++ i :: after } else m.code.block c := by
    intro c
    rw [hn,← hk]
    rfl
  have hop : ∀ j, (n.code.instr j).op = (m.code.instr j).op ∧
      (n.code.instr j).operands = (m.code.instr j).operands := by
    grind
  have hlists := lists_of_lines hblock
  refine ⟨fun j => (hop j).1,fun j => ?_,parent_of_parents hinstr,hl,fun c => (hlists c).1,
    fun c => (hlists c).2.1,fun c => (hlists c).2.2⟩
  rw [Module.targets,Module.targets,op_eq_code,op_eq_code,operands_eq_code,operands_eq_code,
    (hop j).1,(hop j).2]

theorem placed_insertAt (m : Module) (b : BlockId) (k : Nat) (i : InstrId) :
    Placed m (m.insertAt b k i) b i ((m.block b).instrs.take k) ((m.block b).instrs.drop k) :=
  .of_code (take_append_drop _ _).symm _ rfl (code_insertAt m b k i)

theorem placed_append (m : Module) (b : BlockId) (i : InstrId) :
    Placed m (m.append b i) b i (m.block b).instrs [] :=
  .of_code (append_nil _).symm _ rfl (code_append m b i)

namespace Placed

theorem mem_iff (hn : Placed m n b i before after) :
    j ∈ (n.block c).instrs ↔ j ∈ (m.block c).instrs ∨ (c = b ∧ j = i) := by
  rw [hn.instrs]
  split
  · rename_i hc
    subst hc
    rw [hn.lines]
    simp
    tauto
  · rename_i hc
    simp [hc]

/-- What leaves the block comes last, whether it is the new instruction or not. -/
theorem orderly (hn : Placed m n b i before after) (h : Orderly m) (hi : (m.instr i).parent = none)
    (hbefore : ∀ j ∈ before, (m.instr j).op.isTerminator = false)
      (hterm : (m.instr i).op.isTerminator = true → after = []) :
    Orderly n := by
  have hib : ∀ c, i ∉ (m.block c).instrs := fun c hc => by
    rw [h.seated,hi] at hc
    cases hc
  constructor
  · intro c j
    rw [hn.mem_iff,hn.parent]
    split
    · rename_i hj
      subst hj
      simp [hib c,eq_comm]
    · rename_i hj
      simp [hj,h.seated]
  · intro c
    rw [hn.instrs]
    split
    · have h1 := h.once b
      have h2 := hib b
      rw [hn.lines] at h1 h2
      rw [nodup_middle]
      exact nodup_cons.mpr ⟨h2,h1⟩
    · exact h.once c
  · intro c xs j ys hs hj
    rw [hn.op] at hj
    rw [hn.instrs] at hs
    split at hs
    · -- the terminator stands before the new instruction, is it, or stands after it
      obtain ⟨us,hx,hu⟩ | ⟨us,hb,hu⟩ := append_eq_append_iff.mp hs
      · cases us with
        | nil =>
          obtain ⟨rfl,rfl⟩ := hu
          exact hterm hj
        | cons u us =>
          simp only [cons_append,cons.injEq] at hu
          exact h.last b (before ++ us) j ys (by rw [hn.lines,hu.2]; simp) hj
      · cases us with
        | nil =>
          obtain ⟨rfl,rfl⟩ := hu
          exact hterm hj
        | cons u us =>
          simp only [cons_append] at hu
          obtain ⟨rfl,_⟩ := hu
          have := hbefore j (hb ▸ by simp)
          rw [hj] at this
          cases this
    · exact h.last c xs j ys hs hj

theorem branches_iff (hn : Placed m n b i before after) :
    n.Branches a c ↔ m.Branches a c ∨ (a = b ∧ c ∈ m.targets i) := by
  simp only [Branches,hn.mem_iff,hn.targets]
  constructor
  · rintro ⟨t,ht | ⟨rfl,rfl⟩,hc⟩
    · exact .inl ⟨t,ht,hc⟩
    · exact .inr ⟨rfl,hc⟩
  · rintro (⟨t,ht,hc⟩ | ⟨rfl,hc⟩)
    · exact ⟨t,.inl ht,hc⟩
    · exact ⟨i,.inr ⟨rfl,rfl⟩,hc⟩

end Placed

/-- What is seen of a module after an instruction has been taken out of its block. -/
structure Taken (m n : Module) (b : BlockId) (i : InstrId) : Prop where
  op : ∀ j, (n.instr j).op = (m.instr j).op
  targets : ∀ j, j ≠ i → n.targets j = m.targets j
  parent : ∀ j, (n.instr j).parent = if j = i then none else (m.instr j).parent
  instrs : ∀ c, (n.block c).instrs = if c = b then (m.block b).instrs.erase i
    else (m.block c).instrs

theorem taken_remove (hi : i ∈ (m.block b).instrs) : Taken m (m.remove b i) b i ∧
    (∀ c, (m.remove b i).succs c = m.succs c) ∧
    ∀ c, (m.remove b i).preds c = m.preds c := by
  have hcode := code_remove m hi
  generalize m.remove b i = n at hcode
  have hinstr : ∀ j, n.code.instr j = if i = j then { m.code.instr i with parent := none }
    else m.code.instr j :=
    fun j => by rw [hcode]; rfl
  have hblock : ∀ c, n.code.block c = if b = c
    then { m.code.block b with instrs := (m.block b).instrs.erase i } else m.code.block c :=
    fun c => by rw [hcode]; rfl
  have hlists := lists_of_lines hblock
  refine ⟨⟨fun j => ?_,fun j hj => ?_,parent_of_parents hinstr,fun c => (hlists c).1⟩,
    fun c => (hlists c).2.1,fun c => (hlists c).2.2⟩
  · rw [op_eq_code,hinstr]
    split
    · rename_i hj
      rw [hj]
      rfl
    · rfl
  · exact targets_congr (by rw [hinstr,if_neg (Ne.symm hj)])

namespace Taken

theorem mem_iff (hn : Taken m n b i) (h : Orderly m) :
    j ∈ (n.block c).instrs ↔ j ∈ (m.block c).instrs ∧ ¬(c = b ∧ j = i) := by
  rw [hn.instrs]
  split
  · rename_i hc
    subst hc
    simp [(h.once c).mem_erase_iff,and_comm]
  · rename_i hc
    simp [hc]

theorem orderly (hn : Taken m n b i) (h : Orderly m) (hi : i ∈ (m.block b).instrs) : Orderly n where
  seated c j := by
    rw [hn.mem_iff h,hn.parent,h.seated]
    split
    · rename_i hj
      subst hj
      rw [(h.seated b j).mp hi,Option.some.injEq]
      simp_all
    · rename_i hj
      simp [hj]
  once c := by
    rw [hn.instrs]
    split
    · exact (h.once b).erase i
    · exact h.once c
  last c xs j ys hs hj := by
    rw [hn.op] at hj
    rw [hn.instrs] at hs
    split at hs
    · -- with the instruction back in its place the terminator still comes last
      obtain ⟨us,vs,hi',hl,he⟩ := exists_erase_eq hi
      rw [he] at hs
      obtain ⟨ws,hx,hw⟩ | ⟨ws,hu,hw⟩ := append_eq_append_iff.mp hs
      · exact h.last b (us ++ i :: ws) j ys (by rw [hl,hw]; simp) hj
      · cases ws with
        | nil =>
          rw [nil_append] at hw
          exact h.last b (us ++ [i]) j ys (by rw [hl,hw]; simp) hj
        | cons w ws =>
          simp only [cons_append] at hw
          obtain ⟨rfl,hys⟩ := hw
          have := h.last b xs j (ws ++ i :: vs) (by rw [hl,hu]; simp) hj
          simp at this
    · exact h.last c xs j ys hs hj

theorem branches_iff (hn : Taken m n b i) (h : Orderly m) (hi : i ∈ (m.block b).instrs) :
    n.Branches a c ↔ m.Branches a c ∧ ¬(a = b ∧ c ∈ m.targets i) := by
  constructor
  · rintro ⟨t,ht,hc⟩
    rw [hn.mem_iff h] at ht
    have hti : t ≠ i := by
      rintro rfl
      exact ht.2 ⟨Option.some.inj (((h.seated a t).mp ht.1).symm.trans ((h.seated b t).mp hi)),rfl⟩
    rw [hn.targets t hti] at hc
    refine ⟨⟨t,ht.1,hc⟩,fun ⟨hab,hci⟩ => hti ?_⟩
    subst hab
    exact h.terminator_unique ht.1 hi (isTerminator_of_mem_targets hc)
      (isTerminator_of_mem_targets hci)
  · rintro ⟨⟨t,ht,hc⟩,hne⟩
    have hti : ¬(a = b ∧ t = i) := fun ⟨hab,hti⟩ => hne ⟨hab,hti ▸ hc⟩
    refine ⟨t,(hn.mem_iff h).mpr ⟨ht,hti⟩,?_⟩
    rw [hn.targets t]
    · exact hc
    · rintro rfl
      exact hti ⟨Option.some.inj (((h.seated a t).mp ht).symm.trans ((h.seated b t).mp hi)),rfl⟩

end Taken

theorem SameLines.orderly (hl : SameLines m n) (h : Orderly m) : Orderly n :=
  h.of_view hl.instrs (fun i => parent_of_code (congrFun hl.instr i)) fun _ i _ =>
    op_of_code (congrFun hl.instr i)

theorem SameLines.branches_iff (hl : SameLines m n) : n.Branches a c ↔ m.Branches a c := by
  rw [Branches,hl.instrs]
  exact exists_congr fun t => and_congr_right fun _ => by rw [targets_congr (congrFun hl.instr t)]

end CMinusF.Module
