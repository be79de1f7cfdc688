import CMinusF.Proofs.Graph.Mirror

/-! What making globals, functions, blocks, instructions and edges does to the code, and that the
use lists stay in step with it. -/
namespace CMinusF
open List

/-- A function without its blocks, its use lists and its count of instructions. -/
def Func.header (x : Func) : Func := { x.bare with numbered := 0 }

namespace Module

def Listed (m : Module) (b : BlockId) : Prop := b ∈ (m.func b.func).layout

def header (m : Module) (f : FuncId) : Func := (m.func f).header

/-- How many of each kind of thing have been made. -/
@[ext] structure Sizes where
  instrs : Nat
  literals : Nat
  globals : Nat
  funcs : Nat
  blocks : FuncId → Nat

def sizes (m : Module) : Sizes where
  instrs := m.instrTable.size
  literals := m.literalTable.size
  globals := m.globalTable.size
  funcs := m.funcTable.size
  blocks f := (m.func f).blocks.size

structure Fuller (m n : Module) : Prop where
  instrs : m.instrTable.size ≤ n.instrTable.size
  literals : m.literalTable.size ≤ n.literalTable.size
  globals : m.globalTable.size ≤ n.globalTable.size
  funcs : m.funcTable.size ≤ n.funcTable.size

namespace Fuller

theorem refl (m : Module) : Fuller m m := ⟨Nat.le_refl _,Nat.le_refl _,Nat.le_refl _,Nat.le_refl _⟩

theorem trans {m n k : Module} (h : Fuller m n) (h' : Fuller n k) : Fuller m k :=
  ⟨Nat.le_trans h.instrs h'.instrs,Nat.le_trans h.literals h'.literals,
    Nat.le_trans h.globals h'.globals,Nat.le_trans h.funcs h'.funcs⟩

theorem of_sizes {m n : Module} {k : Nat} (h : n.sizes = { m.sizes with instrs := k })
    (hk : m.instrTable.size ≤ k) :
    Fuller m n :=
  ⟨hk.trans (Nat.le_of_eq (congrArg Sizes.instrs h).symm),
    Nat.le_of_eq (congrArg Sizes.literals h).symm,
    Nat.le_of_eq (congrArg Sizes.globals h).symm,Nat.le_of_eq (congrArg Sizes.funcs h).symm⟩

end Fuller

def Sizes.Known (s : Sizes) : Operand → Prop
  | .literal c => c < s.literals
  | .global g => g < s.globals
  | .arg f _ => f < s.funcs
  | .instr i => i < s.instrs
  | .block b => b.number < s.blocks b.func
  | .func f => f < s.funcs
  | .hole => True

abbrev Made (m : Module) (b : BlockId) : Prop := b.number < (m.func b.func).blocks.size

section
variable (m : Module)

theorem func_of_size_le {f : FuncId} (h : m.funcTable.size ≤ f) : m.func f = default :=
  Table.get_of_size_le _ h

theorem Made.func_lt {m : Module} {b : BlockId} (h : m.Made b) : b.func < m.funcTable.size := by
  by_contra hf
  rw [Made,m.func_of_size_le (Nat.le_of_not_lt hf)] at h
  exact absurd h (Nat.not_lt_zero _)

theorem Made.of_blocks {m n : Module} {b : BlockId} (h : m.Made b)
    (hs : n.sizes.blocks = m.sizes.blocks) : n.Made b :=
  Nat.lt_of_lt_of_eq h (congrFun hs b.func).symm

/-! What exists is changed without making room for anything else. -/

theorem sizes_modifyInstr {i : InstrId} (hi : i < m.instrTable.size) (h : Instr → Instr) :
    (m.modifyInstr i h).sizes = m.sizes := by
  refine Sizes.ext ?_ rfl rfl rfl rfl
  simp only [sizes,modifyInstr,Table.size_modify]
  exact Nat.max_eq_left hi

theorem sizes_modifyFunc {f : FuncId} (hf : f < m.funcTable.size) (h : Func → Func)
    (hk : ∀ x, (h x).blocks = x.blocks) :
    (m.modifyFunc f h).sizes = m.sizes := by
  refine Sizes.ext rfl rfl rfl ?_ (funext fun g => ?_)
  · simp only [sizes,modifyFunc,Table.size_modify]
    exact Nat.max_eq_left hf
  · simp only [sizes,func_modifyFunc]
    split
    · rename_i hg
      rw [hk,hg]
    · rfl

theorem sizes_modifyBlock {b : BlockId} (hb : m.Made b) (h : Block → Block) :
    (m.modifyBlock b h).sizes = m.sizes := by
  refine Sizes.ext rfl rfl rfl ?_ (funext fun f => ?_)
  · simp only [sizes,modifyBlock,modifyFunc,Table.size_modify]
    exact Nat.max_eq_left hb.func_lt
  · simp only [sizes,func_modifyBlock]
    split
    · rename_i hf
      subst hf
      simp only [Table.size_modify]
      exact Nat.max_eq_left hb
    · rfl

theorem sizes_modifyUses {v : Operand} (hv : m.sizes.Known v) (h : List InstrId → List InstrId) :
    (m.modifyUses v h).sizes = m.sizes := by
  cases v with
  | literal c =>
    refine Sizes.ext rfl ?_ rfl rfl rfl
    simp only [sizes,modifyUses,modifyLiteral,Table.size_modify]
    exact Nat.max_eq_left hv
  | global g =>
    refine Sizes.ext rfl rfl ?_ rfl rfl
    simp only [sizes,modifyUses,modifyGlobal,Table.size_modify]
    exact Nat.max_eq_left hv
  | instr i => exact sizes_modifyInstr m hv _
  | arg f i =>
    exact sizes_modifyFunc m hv (fun x => { x with argUses := x.argUses.modify i h }) fun _ => rfl
  | func f => exact sizes_modifyFunc m hv (fun x => { x with uses := h x.uses }) fun _ => rfl
  | block b => exact sizes_modifyBlock m hv _
  | hole => rfl

theorem sizes_addUses {vs : List Operand} (hv : ∀ v ∈ vs, m.sizes.Known v) (i : InstrId) :
    (vs.foldl (fun m v => m.addUse v i) m).sizes = m.sizes := by
  induction vs generalizing m with
  | nil => rfl
  | cons v vs ih =>
    have h : (m.addUse v i).sizes = m.sizes := sizes_modifyUses m (hv v mem_cons_self) _
    simp_all

theorem sizes_counted {f : FuncId} (hf : f < m.funcTable.size) (t : Ty) :
    (m.counted f t).sizes = m.sizes := by
  unfold counted
  split
  · rfl
  · exact sizes_modifyFunc m hf (fun x => { x with numbered := x.numbered + 1 }) fun _ => rfl

theorem sizes_makeInstr {f : FuncId} (hf : f < m.funcTable.size) {vs : List Operand}
    (hv : ∀ v ∈ vs, m.sizes.Known v) (op : Opcode) (t : Ty) (object : Option Ty) :
    (m.makeInstr f op t object vs).1.sizes = { m.sizes with instrs := m.instrTable.size + 1 } := by
  have hc : ({ m.counted f t with
      instrTable := m.instrTable.push (m.newInstr f op t object vs) } : Module).sizes =
      { m.sizes with instrs := m.instrTable.size + 1 } := by
    rw [← sizes_counted m hf t]
    exact Sizes.ext (Table.size_push _ _) rfl rfl rfl rfl
  rw [makeInstr_fst,sizes_addUses _ fun v hvs => ?_,hc]
  rw [hc]
  have := hv v hvs
  cases v with
  | instr j => exact Nat.lt_succ_of_lt this
  | _ => exact this

end

/-! Instructions in blocks. -/
section
variable (m : Module)

theorem code_append (b : BlockId) (i : InstrId) : (m.append b i).code =
    (m.code.modifyInstr i fun x => { x with parent := some b }).modifyBlock b
      fun x => { x with instrs := x.instrs ++ [i] } := by
  have h := code_modifyInstr m i (fun x => { x with parent := some b })
    (fun x => { x with parent := some b }) fun _ => rfl
  rw [append,code_modifyBlock _ b _ (fun x => { x with instrs := x.instrs ++ [i] }) fun _ => rfl,h]

theorem sizes_append {b : BlockId} {i : InstrId} (hi : i < m.instrTable.size) (hb : m.Made b) :
    (m.append b i).sizes = m.sizes := by
  rw [append,sizes_modifyBlock (m.modifyInstr i fun x => { x with parent := some b }) hb,
    sizes_modifyInstr m hi]

theorem sizes_insertAt {b : BlockId} {i : InstrId} (hi : i < m.instrTable.size)
    (hb : m.Made b) (k : Nat) :
    (m.insertAt b k i).sizes = m.sizes := by
  rw [insertAt,sizes_modifyBlock (m.modifyInstr i fun x => { x with parent := some b }) hb,
    sizes_modifyInstr m hi]

theorem Mirror.append {m : Module} (h : m.Mirror) (b : BlockId) (i : InstrId) :
    (m.append b i).Mirror := by
  have hu : ∀ v, (m.append b i).uses v = m.uses v := fun v => by
    rw [Module.append,uses_modifyBlock (m.modifyInstr i fun x => { x with parent := some b }) b
      (fun x => { x with instrs := x.instrs ++ [i] }) (fun _ => rfl),
      uses_modifyInstr m i (fun x => { x with parent := some b }) fun _ => rfl]
  have ho : ∀ u, (m.append b i).operands u = m.operands u := by
    intro u
    rw [operands_eq_code,code_append]
    simp only [Code.modifyBlock,Code.modifyInstr]
    split
    · rename_i hi
      rw [hi]
      rfl
    · rfl
  intro v hv u
  rw [hu,ho]
  exact h v hv u

theorem header_counted (f : FuncId) (t : Ty) (g : FuncId) :
    (m.counted f t).header g = m.header g := by
  unfold counted
  split
  · rfl
  · simp only [header,func_modifyFunc]
    split
    · rename_i h
      rw [h]
      rfl
    · rfl

def linkedInstr (b : BlockId) (op : Opcode) (t : Ty) (object : Option Ty)
    (vs : List Operand) : Instr :=
  { m.newInstr b.func op t object vs with parent := some b }

/-- What is seen of a module after one instruction has been made and put into a block that held
`before ++ after`. -/
structure Linked (m n : Module) (b : BlockId) (op : Opcode) (t : Ty) (object : Option Ty)
    (vs : List Operand) (before after : List InstrId) : Prop extends SameContext m n where
  instr : ∀ j, n.code.instr j =
    if j = m.instrTable.size then m.linkedInstr b op t object vs else m.code.instr j
  block : ∀ c, n.code.block c =
    if c = b then { m.code.block b with instrs := before ++ m.instrTable.size :: after }
      else m.code.block c
  header : ∀ g, n.header g = m.header g
  sizes : n.sizes = { m.sizes with instrs := m.instrTable.size + 1 }

theorem targets_of_not_br {m : Module} {i : InstrId} (h : (m.instr i).op ≠ .br) :
    m.targets i = [] := by
  unfold targets
  split
  · contradiction
  · rfl

theorem targets_congr {m n : Module} {i : InstrId} (h : n.code.instr i = m.code.instr i) :
    n.targets i = m.targets i := by
  have ho : (n.instr i).op = (m.instr i).op := by rw [n.op_eq_code,h]; rfl
  have hv : n.operands i = m.operands i := by rw [n.operands_eq_code,h]; rfl
  rw [targets,targets,ho,hv]

namespace Linked
variable {m n : Module} {b c : BlockId} {op : Opcode} {t : Ty} {object : Option Ty}
  {vs : List Operand} {before after : List InstrId}

variable (h : Linked m n b op t object vs before after)
include h

theorem layout (f : FuncId) : (n.func f).layout = (m.func f).layout := by
  have := congrArg Func.layout (h.header f)
  exact this

theorem listed_iff : n.Listed c ↔ m.Listed c := by
  rw [Listed,h.layout]
  exact Iff.rfl

theorem instr_old {j : InstrId} (hj : j < m.instrTable.size) :
    n.code.instr j = m.code.instr j := by
  rw [h.instr,if_neg (Nat.ne_of_lt hj)]

theorem instr_new : n.code.instr m.instrTable.size = m.linkedInstr b op t object vs := by
  rw [h.instr,if_pos rfl]

theorem instrs (c : BlockId) :
    (n.block c).instrs = if c = b then before ++ m.instrTable.size :: after
      else (m.block c).instrs := by
  rw [instrs_eq_code,h.block]
  split <;> rfl

theorem size : n.instrTable.size = m.instrTable.size + 1 :=
  congrArg Sizes.instrs h.sizes

theorem blocks (f : FuncId) :
    (n.func f).blocks.size = (m.func f).blocks.size := congrFun (congrArg Sizes.blocks h.sizes) f

theorem op_old {j : InstrId} (hj : j < m.instrTable.size) :
    (n.instr j).op = (m.instr j).op := by
  rw [n.op_eq_code,m.op_eq_code,h.instr_old hj]

theorem op_new : (n.instr m.instrTable.size).op = op := by
  rw [n.op_eq_code,h.instr_new]
  rfl

end Linked

/-- Putting a new instruction into a block, given that `place` does so. -/
theorem linked_of_place {m : Module} {b : BlockId} {op : Opcode} {t : Ty} {object : Option Ty}
    {vs : List Operand} {before after : List InstrId} (hb : m.Made b)
    (hv : ∀ v ∈ vs, m.sizes.Known v) (place : Module → Module) (k : Block → Block)
    (hcode : ∀ n, (place n).code =
      (n.code.modifyInstr m.instrTable.size fun x => { x with parent := some b }).modifyBlock b k)
    (hsizes : ∀ n, m.instrTable.size < n.instrTable.size → n.Made b → (place n).sizes = n.sizes)
    (hk : k (m.code.block b) =
      { m.code.block b with instrs := before ++ m.instrTable.size :: after }) :
    Linked m (place (m.makeInstr b.func op t object vs).1) b op t object vs before after := by
  have hc := code_makeInstr m b.func op t object vs
  have hs := sizes_makeInstr m hb.func_lt hv op t object
  have hblock : (m.counted b.func t).code.block = m.code.block := by
    rw [code_counted]
    split <;> rfl
  have hinstr : (m.counted b.func t).code.instr = m.code.instr := by
    rw [code_counted]
    split <;> rfl
  have hplace := hcode (m.makeInstr b.func op t object vs).1
  rw [hc] at hplace
  constructor
  case instr =>
    intro j
    rw [hplace]
    simp only [Code.modifyBlock,Code.modifyInstr,Code.setInstr,hinstr]
    by_cases hj : j = m.instrTable.size
    · rw [if_pos hj.symm,if_pos hj]
      rfl
    · rw [if_neg (Ne.symm hj),if_neg hj,if_neg hj]
  case block =>
    intro c
    rw [hplace]
    simp only [Code.modifyBlock,Code.modifyInstr,Code.setInstr,hblock]
    grind
  case header =>
    intro g
    have h := congrArg (fun c : Code => ({ c.func g with numbered := 0 } : Func)) hplace
    exact Eq.trans h (header_counted m b.func t g)
  case toSameContext =>
    refine ⟨?_⟩
    rw [hplace,code_counted]
    split <;> rfl
  case sizes =>
    rw [hsizes,hs]
    · exact Nat.lt_of_lt_of_eq (Nat.lt_succ_self _) (congrArg Sizes.instrs hs).symm
    · exact Nat.lt_of_lt_of_eq hb (congrFun (congrArg Sizes.blocks hs) b.func).symm

theorem linked_append {b : BlockId} (hb : m.Made b) (op : Opcode) (t : Ty) (object : Option Ty)
    {vs : List Operand} (hv : ∀ v ∈ vs, m.sizes.Known v) :
    Linked m ((m.makeInstr b.func op t object vs).1.append b m.instrTable.size) b op t object vs
      (m.block b).instrs [] :=
  linked_of_place hb hv (fun n => n.append b m.instrTable.size)
    (fun x => { x with instrs := x.instrs ++ [m.instrTable.size] })
    (fun n => code_append n b _) (fun n hi hn => sizes_append n hi hn) rfl

theorem linked_emit {b : BlockId} (hb : m.Made b) (op : Opcode) (t : Ty) {vs : List Operand}
    (hv : ∀ v ∈ vs, m.sizes.Known v) :
    Linked m (m.emit b op t vs).1 b op t none vs (m.block b).instrs [] :=
  linked_append m hb op t none hv

theorem linked_alloca {b : BlockId} (hb : m.Made b) (t : Ty) :
    Linked m (m.alloca b t).1 b .alloca (.pointer t) (some t) [] (m.block b).instrs [] :=
  linked_append m hb .alloca (.pointer t) (some t) fun _ h => absurd h (not_mem_nil)

def heads (b : BlockId) : List InstrId :=
  (m.block b).instrs.takeWhile fun i => (m.instr i).op = .alloca

/-- The instructions of a block after its allocas. -/
def work (b : BlockId) : List InstrId :=
  (m.block b).instrs.dropWhile fun i => (m.instr i).op = .alloca

theorem heads_append_work (b : BlockId) : m.heads b ++ m.work b = (m.block b).instrs :=
  takeWhile_append_dropWhile

theorem op_of_mem_heads {m : Module} {b : BlockId} {i : InstrId} (h : i ∈ m.heads b) :
    (m.instr i).op = .alloca := by
  have := all_eq_true.mp all_takeWhile i h
  simpa using this

theorem parts_of_append {m : Module} {b : BlockId} {hs ws : List InstrId}
    (h : (m.block b).instrs = hs ++ ws) (hh : ∀ i ∈ hs, (m.instr i).op = .alloca)
    (hw : ∀ i ∈ ws, (m.instr i).op ≠ .alloca) : m.heads b = hs ∧ m.work b = ws := by
  have hall : ∀ i ∈ hs, decide ((m.instr i).op = .alloca) = true :=
    fun i hi => decide_eq_true (hh i hi)
  have hnil : ws.takeWhile (fun i => decide ((m.instr i).op = .alloca)) = [] := by
    cases ws with
    | nil => rfl
    | cons i ws => rw [takeWhile_cons,if_neg (by simpa using hw i mem_cons_self)]
  have hrest : ws.dropWhile (fun i => decide ((m.instr i).op = .alloca)) = ws := by
    cases ws with
    | nil => rfl
    | cons i ws => rw [dropWhile_cons,if_neg (by simpa using hw i mem_cons_self)]
  constructor
  · rw [heads,h,takeWhile_append_of_pos hall,hnil,append_nil]
  · rw [work,h,dropWhile_append_of_pos hall,hrest]

theorem parts_congr {m n : Module} {b : BlockId} (hi : (n.block b).instrs = (m.block b).instrs)
    (ho : ∀ i ∈ (m.block b).instrs, (n.instr i).op = (m.instr i).op) :
    n.heads b = m.heads b ∧ n.work b = m.work b := by
  rw [heads,work,hi,heads,work]
  generalize (m.block b).instrs = is at ho
  induction is with
  | nil => exact ⟨rfl,rfl⟩
  | cons i is ih =>
    have ih := ih fun j hj => ho j (mem_cons_of_mem _ hj)
    simp only [takeWhile_cons,dropWhile_cons,ho i mem_cons_self]
    grind

theorem linked_allocaAtEntry {f : FuncId} {e : BlockId} (he : (m.func f).layout.head? = some e)
    (hm : m.Made e) (hlt : ∀ i ∈ (m.block e).instrs, i < m.instrTable.size) (t : Ty) :
    Linked m (m.allocaAtEntry f t).1 e .alloca (.pointer t) (some t) [] (m.heads e) (m.work e) := by
  have hc := code_makeInstr m e.func .alloca (.pointer t) (some t) []
  have hentry : ((m.func f).entryBlock?.getD default) = e := by rw [Func.entryBlock?,he]; rfl
  -- the new instruction is in no block yet
  have hop : ∀ i ∈ (m.block e).instrs,
      ((m.makeInstr e.func .alloca (.pointer t) (some t) []).1.instr i).op = (m.instr i).op := by
    intro i hi
    rw [op_eq_code,hc]
    simp only [Code.setInstr]
    rw [if_neg (Nat.ne_of_lt (hlt i hi)),code_counted]
    split <;> rfl
  have hins : ((m.makeInstr e.func .alloca (.pointer t) (some t) []).1.block e).instrs =
      (m.block e).instrs := by
    rw [instrs_eq_code,hc,instrs_eq_code]
    rw [code_counted]
    split <;> rfl
  have hheads : (m.makeInstr e.func .alloca (.pointer t) (some t) []).1.heads e = m.heads e :=
    (parts_congr hins hop).1
  have hplace : (m.allocaAtEntry f t).1 =
      (m.makeInstr e.func .alloca (.pointer t) (some t) []).1.insertAt e
        (m.heads e).length m.instrTable.size := by
    rw [← hheads]
    simp only [allocaAtEntry,hentry]
    rfl
  rw [hplace]
  refine linked_of_place hm (fun _ h => absurd h not_mem_nil)
    (fun n => n.insertAt e (m.heads e).length m.instrTable.size) (fun x =>
    { x with
      instrs := x.instrs.take (m.heads e).length ++ m.instrTable.size ::
        x.instrs.drop (m.heads e).length })
    (fun n => code_insertAt n e _ _) (fun n hi hn => sizes_insertAt n hi hn _) ?_
  have hi : (m.code.block e).instrs = m.heads e ++ m.work e := (m.heads_append_work e).symm
  simp only [hi,take_left,drop_left]

end

/-! Use lists. -/
namespace Mirror
variable {m : Module}

theorem emit (h : m.Mirror) (b : BlockId) (op : Opcode) (t : Ty) (vs : List Operand) :
    (m.emit b op t vs).1.Mirror :=
  (h.makeInstr b.func op t none vs).append b _

theorem alloca (h : m.Mirror) (b : BlockId) (t : Ty) : (m.alloca b t).1.Mirror :=
  (h.makeInstr b.func .alloca (.pointer t) (some t) []).append b _

theorem allocaAtEntry (h : m.Mirror) (f : FuncId) (t : Ty) : (m.allocaAtEntry f t).1.Mirror :=
  (h.makeInstr _ .alloca (.pointer t) (some t) []).insertAt _ _ _

end Mirror

/-! Edges. -/
section
variable (m : Module)

theorem header_of_code {m n : Module} (h : n.code.func = m.code.func) (g : FuncId) :
    n.header g = m.header g :=
  congrArg (fun x : Func => { x with numbered := 0 }) (congrFun h g)

theorem code_addEdge (b c : BlockId) : (m.addEdge b c).code =
    (m.code.modifyBlock b fun x => { x with succs := addTo x.succs c }).modifyBlock c
      fun x => { x with preds := addTo x.preds b } := by
  have h := code_modifyBlock m b (fun x => { x with succs := addTo x.succs c })
    (fun x => { x with succs := addTo x.succs c }) fun _ => rfl
  rw [addEdge,code_modifyBlock _ c _ (fun x => { x with preds := addTo x.preds b }) fun _ => rfl,h]

theorem Mirror.addEdge {m : Module} (h : m.Mirror) (b c : BlockId) : (m.addEdge b c).Mirror := by
  have hu : ∀ v, (m.addEdge b c).uses v = m.uses v := fun v => by
    rw [Module.addEdge,uses_modifyBlock
      (m.modifyBlock b fun x => { x with succs := addTo x.succs c }) c
      (fun x => { x with preds := addTo x.preds b }) (fun _ => rfl),
      uses_modifyBlock m b (fun x => { x with succs := addTo x.succs c }) fun _ => rfl]
  intro v hv u
  rw [hu,operands_eq_code,code_addEdge]
  exact h v hv u

theorem mem_addTo {bs : List BlockId} {b c : BlockId} : c ∈ addTo bs b ↔ c ∈ bs ∨ c = b := by
  unfold addTo
  split
  · simp_all
  · simp

theorem sizes_addEdge {b c : BlockId} (hb : m.Made b) (hc : m.Made c) :
    (m.addEdge b c).sizes = m.sizes := by
  have h := sizes_modifyBlock m hb fun x => { x with succs := addTo x.succs c }
  rw [addEdge,sizes_modifyBlock _
    (Nat.lt_of_lt_of_eq hc (congrFun (congrArg Sizes.blocks h) c.func).symm),h]

end

/-! Blocks and functions. -/
section
variable (m : Module)

/-- An empty block that gets its place in the layout of a function. -/
def seat (f : FuncId) (hint : String) (place : List BlockId → List BlockId) : Module :=
  (m.makeBlock f hint).1.modifyFunc f fun x => { x with layout := place x.layout }

theorem addBlock_fst (f : FuncId) (hint : String) :
    (m.addBlock f hint).1 = m.seat f hint (· ++ [⟨f,(m.func f).blocks.size⟩]) := rfl

theorem addBlockBefore_fst (f : FuncId) (hint : String) (h : BlockId) :
    (m.addBlockBefore f hint h).1 = m.seat f hint fun l =>
      l.take ((m.func f).layout.idxOf h) ++ ⟨f,(m.func f).blocks.size⟩ :: l.drop
        ((m.func f).layout.idxOf h) := by
  have hl : ((m.makeBlock f hint).1.func f).layout = (m.func f).layout := by
    simp [makeBlock,func_modifyFunc]
  rw [← hl]
  rfl

theorem block_seat (f : FuncId) (hint : String) (place : List BlockId → List BlockId)
    (c : BlockId) :
    (m.seat f hint place).block c = if c = ⟨f,(m.func f).blocks.size⟩ then
      ⟨(if hint = "" then "bb" else hint) ++ toString (m.func f).blocks.size,[],[],[],[]⟩
        else m.block c := by
  obtain ⟨g,n⟩ := c
  simp only [seat,makeBlock,block,func_modifyFunc]
  by_cases hf : f = g
  · subst hf
    simp only [↓reduceIte,Table.get_push,BlockId.mk.injEq,true_and]
  · simp [hf,Ne.symm hf]

theorem layout_seat (f : FuncId) (hint : String) (place : List BlockId → List BlockId)
    (g : FuncId) :
    ((m.seat f hint place).func g).layout = if g = f then place (m.func f).layout
      else (m.func g).layout := by
  simp only [seat,makeBlock,func_modifyFunc]
  grind

theorem signature_seat (f : FuncId) (hint : String) (place : List BlockId → List BlockId)
    (g : FuncId) :
    ((m.seat f hint place).func g).name = (m.func g).name ∧
    ((m.seat f hint place).func g).result = (m.func g).result ∧
      ((m.seat f hint place).func g).params = (m.func g).params := by
  simp only [seat,makeBlock,func_modifyFunc]
  grind

theorem sizes_seat {f : FuncId} (hf : f < m.funcTable.size) (hint : String)
    (place : List BlockId → List BlockId) :
    (m.seat f hint place).sizes =
      { m.sizes with blocks := fun g => (m.func g).blocks.size + if g = f then 1 else 0 } := by
  refine Sizes.ext rfl rfl rfl ?_ (funext fun g => ?_)
  · simp only [sizes,seat,makeBlock,modifyFunc,Table.size_modify]
    grind
  · simp only [sizes,seat,makeBlock,func_modifyFunc]
    by_cases hg : f = g
    · subst hg
      simp
    · simp [hg,Ne.symm hg]

theorem tables_seat (f : FuncId) (hint : String) (place : List BlockId → List BlockId) :
    (m.seat f hint place).instrTable = m.instrTable ∧
    (m.seat f hint place).literalTable = m.literalTable ∧
      (m.seat f hint place).globalTable = m.globalTable ∧ (m.seat f hint place).funcs = m.funcs ∧
      (m.seat f hint place).globals = m.globals := by
  cases m
  exact ⟨rfl,rfl,rfl,rfl,rfl⟩

theorem uses_seat (f : FuncId) (hint : String) (place : List BlockId → List BlockId) (v : Operand) :
    (m.seat f hint place).uses v = m.uses v := by
  obtain ⟨hi,hl,hg,-⟩ := tables_seat m f hint place
  cases v with
  | literal c => simp only [uses,literal,hl]
  | global g => simp only [uses,global,hg]
  | instr i => simp only [uses,instr,hi]
  | block c =>
    simp only [uses,block_seat]
    split
    · rename_i hc
      subst hc
      simp only [block,Table.get_of_size_le _ (Nat.le_refl _)]
      rfl
    · rfl
  | arg g i =>
    simp only [uses,seat,makeBlock,func_modifyFunc,↓reduceIte]
    split
    · rename_i hg
      rw [hg]
    · rfl
  | func g =>
    simp only [uses,seat,makeBlock,func_modifyFunc,↓reduceIte]
    split
    · rename_i hg
      rw [hg]
    · rfl
  | hole => rfl

theorem Mirror.seat {m : Module} (h : m.Mirror) (f : FuncId) (hint : String)
    (place : List BlockId → List BlockId) :
    (m.seat f hint place).Mirror := by
  intro v hv u
  rw [uses_seat,operands,instr,(tables_seat m f hint place).1]
  exact h v hv u

/-- What is seen of a module after a function has got an empty block and with it a new layout. -/
structure Seated (m n : Module) (f : FuncId) (layout' : List BlockId) :
    Prop extends SameContext m n where
  instr : n.code.instr = m.code.instr
  layout : ∀ g, (n.func g).layout = if g = f then layout' else (m.func g).layout
  signature : ∀ g, (n.func g).name = (m.func g).name ∧ (n.func g).result = (m.func g).result ∧
    (n.func g).params = (m.func g).params
  lines : ∀ c, (n.block c).instrs = (m.block c).instrs ∧ (n.block c).succs = (m.block c).succs ∧
    (n.block c).preds = (m.block c).preds
  sizes : n.sizes = { m.sizes with blocks := fun g => (m.func g).blocks.size + if g = f
    then 1 else 0 }

theorem seated {f : FuncId} (hf : f < m.funcTable.size) (hint : String)
    (place : List BlockId → List BlockId) :
    Seated m (m.seat f hint place) f (place (m.func f).layout) where
  instr := funext fun i => by simp only [code,instr,(tables_seat m f hint place).1]
  context := by simp only [Code.context,code,literal,global,tables_seat m f hint place]
  layout := layout_seat m f hint place
  signature := signature_seat m f hint place
  lines c := by
    rw [block_seat]
    split
    · rename_i hc
      have : m.block c = default := by rw [hc,block,Table.get_of_size_le _ (Nat.le_refl _)]
      rw [this]
      exact ⟨rfl,rfl,rfl⟩
    · exact ⟨rfl,rfl,rfl⟩
  sizes := sizes_seat m hf hint place

theorem Mirror.addBlock {m : Module} (h : m.Mirror) (f : FuncId) (hint : String) :
    (m.addBlock f hint).1.Mirror := by
  rw [addBlock_fst]
  exact h.seat f hint _

abbrev Added (m n : Module) (f : FuncId) : Prop :=
  Seated m n f ((m.func f).layout ++ [⟨f,(m.func f).blocks.size⟩])

theorem added_addBlock {f : FuncId} (hf : f < m.funcTable.size) (hint : String) :
    Added m (m.addBlock f hint).1 f := by
  rw [addBlock_fst]
  exact seated m hf hint _

theorem func_addFunc (name : String) (result : Ty) (params : List Ty) (g : FuncId) :
    (m.addFunc name result params).1.func g =
    if g = m.funcTable.size then ⟨name,result,params,[],.empty,0,.empty,[]⟩ else m.func g := by
  simp only [addFunc,func,Table.get_push]

theorem block_addFunc (name : String) (result : Ty) (params : List Ty) (b : BlockId) :
    (m.addFunc name result params).1.block b = m.block b := by
  simp only [block,func_addFunc]
  split
  · rename_i hb
    rw [hb,m.func_of_size_le (Nat.le_refl _)]
    rfl
  · rfl

theorem Mirror.addFunc {m : Module} (h : m.Mirror) (name : String) (result : Ty)
    (params : List Ty) :
    (m.addFunc name result params).1.Mirror := by
  have hu : ∀ v, (m.addFunc name result params).1.uses v = m.uses v := by
    intro v
    cases v with
    | block c => simp only [uses,block_addFunc]
    | arg g i =>
      simp only [uses,func_addFunc]
      split
      · rename_i hg
        rw [hg,m.func_of_size_le (Nat.le_refl _)]
        rfl
      · rfl
    | func g =>
      simp only [uses,func_addFunc]
      split
      · rename_i hg
        rw [hg,m.func_of_size_le (Nat.le_refl _)]
        rfl
      · rfl
    | _ => rfl
  intro v hv u
  rw [hu]
  exact h v hv u

theorem Mirror.addGlobal {m : Module} (h : m.Mirror) (name : String) (contents : Ty) :
    (m.addGlobal name contents).1.Mirror := by
  have hu : ∀ v, (m.addGlobal name contents).1.uses v = m.uses v := by
    intro v
    cases v with
    | global g =>
      simp only [uses,Module.addGlobal,global,Table.get_push]
      split
      · rename_i hg
        rw [hg,Table.get_of_size_le _ (Nat.le_refl _)]
        rfl
      · rfl
    | _ => rfl
  intro v hv u
  rw [hu]
  exact h v hv u

end

end Module
end CMinusF
