import CMinusF.Lowering
import CMinusF.Proofs.Graph.Building
import Mathlib.Data.List.Forall2

/-! The shapes of the instructions that lowering emits. Blocks form a tree, a block standing below
those that every way to it passes; an instruction reads what was emitted before it in its block and
in those above. -/
namespace CMinusF.Lowering
variable {ns : Notes} {a b c : BlockId} {f : FuncId} {j : InstrId} {op : Opcode} {vs : List Operand}

/-- What a block is for: a part of the program, the report of a negative index, or what follows once
an index is known not to be negative. -/
inductive Role where
  | plain | report | checked (index : Operand)

structure Note where
  up : Option BlockId
  role : Role

abbrev Notes := BlockId → Note

inductive Above (ns : Notes) (a : BlockId) : BlockId → Prop where
  | refl : Above ns a a
  | step {b c : BlockId} : (ns b).up = some c → Above ns a c → Above ns a b

theorem Above.trans (h : Above ns a b) (h' : Above ns b c) : Above ns a c := by
  induction h' with
  | refl => exact h
  | step hu _ ih => exact .step hu ih

/-- What is asked of a program: a condition on its integers, and whether a return may give a call
without a value; and the names of the functions that have none. -/
structure Law where
  literal : Int → Prop
  zero : literal 0
  voidName : String → Prop
  voidReturn : Prop

/-! Operands. -/
section
variable (L : Law) (m : Module) (ns : Notes) (b : BlockId) (n : InstrId)

/-- A value that instruction `n` in block `b` may read, and its type. -/
inductive Has : Operand → Ty → Prop where
  | int {c : LiteralId} {k : Int} : c < m.literalTable.size → m.code.literal c = .int k →
      L.literal k →
      Has (.literal c) .i32
  | float {c : LiteralId} {x : Binary32} : c < m.literalTable.size → m.code.literal c = .float x →
      Has (.literal c) .float
  | instr {j : InstrId} {c : BlockId} {t : Ty} : j < n → (m.code.instr j).parent = some c →
      Above ns c b →
      (m.code.instr j).type = t → t.isVoid = false → Has (.instr j) t

def IsZero (v : Operand) : Prop :=
  ∃ c, v = .literal c ∧ c < m.literalTable.size ∧ m.code.literal c = .int 0

inductive Place (f : FuncId) : Operand → Ty → Prop where
  | global {g : GlobalId} {t : Ty} : g < m.globalTable.size → m.code.contents g = t →
      Place f (.global g) t
  | slot {j : InstrId} {t : Ty} : j < n → (m.code.instr j).parent = some ⟨f,0⟩ →
      (m.code.instr j).op = .alloca →
      (m.code.instr j).type = .pointer t → (m.code.instr j).object = some t → Place f (.instr j) t

/-- A parameter has been stored in its slot before instruction `n`. -/
def Received (f : FuncId) (j : InstrId) : Prop :=
  ∃ s < n, ∃ k, (m.code.instr s).parent = some ⟨f,0⟩ ∧ (m.code.instr s).op = .store ∧
    (m.code.instr s).operands = [.arg f k,.instr j]

/-- The instruction gives the address of an array's first element. -/
def IsBase (j : InstrId) : Prop :=
  (m.code.instr j).op = .load ∨
    (m.code.instr j).op = .gep ∧ ∃ p z z', (m.code.instr j).operands = [p,z,z'] ∧ IsZero m z'

/-- What may be passed for a parameter; the types of elements need not agree. -/
inductive Passes (L : Law) (m : Module) (ns : Notes) (b : BlockId) (n : InstrId) :
    Operand → Ty → Prop where
  | value {v : Operand} {s : Scalar} : Has L m ns b n v (scalarType s) →
      Passes L m ns b n v (scalarType s)
  | array {j : InstrId} {s s' : Scalar} : Has L m ns b n (.instr j) (.pointer (scalarType s')) →
      IsBase m j →
      Passes L m ns b n (.instr j) (.pointer (scalarType s))

structure Edge (b c : BlockId) : Prop where
  func : c.func = b.func
  listed : m.Listed c
  up : ∃ u, (ns c).up = some u ∧ Above ns u b

/-- The condition that an index is negative, computed in block `b` itself. -/
def IsSignTest (v i : Operand) : Prop :=
  ∃ j z, v = .instr j ∧ j < n ∧ (m.code.instr j).parent = some b ∧ (m.code.instr j).op = .icmp .lt ∧
    (m.code.instr j).operands = [i,z] ∧ IsZero m z

/-- A block that reports a negative index leads here. -/
def Guarded : Prop :=
  ∃ t < n, ∃ q, m.Listed q ∧ (m.code.instr t).parent = some q ∧
    b ∈ m.targets t ∧ (ns q).role = .report

/-- The entry of a function, or a block that an earlier branch leads to. -/
def Entered : Prop := b.number = 0 ∨ ∃ t < n, b ∈ m.targets t

/-- What is not computed in block `b`. -/
def Elsewhere (v : Operand) : Prop := ∀ j, v = .instr j → (m.code.instr j).parent ≠ some b

/-- What a variable can hold. -/
inductive Storable : Ty → Prop where
  | scalar (s : Scalar) : Storable (scalarType s)
  | array (k : Int) (s : Scalar) : Storable (.array k (scalarType s))
  | pointer (s : Scalar) : Storable (.pointer (scalarType s))

/-- A call of the function that reports a negative index. -/
def IsReport (op : Opcode) (vs : List Operand) : Prop :=
  op = .call ∧ ∃ g, vs = [.func g] ∧ g < m.funcTable.size ∧ (m.func g).layout = [] ∧
    (m.func g).name = Builtin.negativeIndex.name

/-- The instructions of a program; `n` is the number of the instruction and `b` its block. -/
inductive Fits : Opcode → Ty → Option Ty → List Operand → Prop where
  | int {o : Arith} {x y : Operand} : Has L m ns b n x .i32 → Has L m ns b n y .i32 →
      Fits (.int o) .i32 none [x,y]
  | float {o : Arith} {x y : Operand} : Has L m ns b n x .float → Has L m ns b n y .float →
      Fits (.float o) .float none [x,y]
  | icmp {r : Relation} {x y : Operand} : Has L m ns b n x .i32 → Has L m ns b n y .i32 →
      Fits (.icmp r) .i1 none [x,y]
  | fcmp {r : Relation} {x y : Operand} : Has L m ns b n x .float → Has L m ns b n y .float →
      Fits (.fcmp r) .i1 none [x,y]
  | zext {x : Operand} : Has L m ns b n x .i1 → Fits .zext .i32 none [x]
  | fptosi {x : Operand} : Has L m ns b n x .float → Fits .fptosi .i32 none [x]
  | sitofp {x : Operand} : Has L m ns b n x .i32 → Fits .sitofp .float none [x]
  | alloca {t : Ty} : b.number = 0 → Storable t → Fits .alloca (.pointer t) (some t) []
  | loadVariable {p : Operand} {s : Scalar} : Place m n b.func p (scalarType s) →
      Fits .load (scalarType s) none [p]
  | loadReference {j : InstrId} {s : Scalar} :
      Place m n b.func (.instr j) (.pointer (scalarType s)) →
      Received m n b.func j → Fits .load (.pointer (scalarType s)) none [.instr j]
  | loadElement {j : InstrId} {s : Scalar} : Has L m ns b n (.instr j) (.pointer (scalarType s)) →
      (m.code.instr j).op = .gep → (m.code.instr j).parent = some b →
        Fits .load (scalarType s) none [.instr j]
  | storeVariable {v p : Operand} {s : Scalar} : Has L m ns b n v (scalarType s) →
      Place m n b.func p (scalarType s) → Fits .store .void none [v,p]
  | storeParam {k : Nat} {j : InstrId} {t : Ty} : b.number = 0 →
      (m.func b.func).params[k]? = some t →
      Place m n b.func (.instr j) t → Fits .store .void none [.arg b.func k,.instr j]
  | storeElement {v : Operand} {j : InstrId} {s : Scalar} : Has L m ns b n v (scalarType s) →
      Has L m ns b n (.instr j) (.pointer (scalarType s)) → (m.code.instr j).op = .gep →
        Fits .store .void none [v,.instr j]
  | gepElement {p z v : Operand} {k : Int} {s : Scalar} :
      Place m n b.func p (.array k (scalarType s)) → IsZero m z →
      Has L m ns b n v .i32 → Elsewhere m b v → (ns b).role = .checked v → Guarded m ns b n →
      Fits .gep (.pointer (scalarType s)) none [p,z,v]
  | gepFirst {p z z' : Operand} {k : Int} {s : Scalar} :
      Place m n b.func p (.array k (scalarType s)) → IsZero m z →
      IsZero m z' → Fits .gep (.pointer (scalarType s)) none [p,z,z']
  | gepOffset {j : InstrId} {v : Operand} {s : Scalar} :
      Has L m ns b n (.instr j) (.pointer (scalarType s)) →
      (m.code.instr j).op = .load → Has L m ns b n v .i32 → Elsewhere m b v →
        (ns b).role = .checked v → Guarded m ns b n →
      Fits .gep (.pointer (scalarType s)) none [.instr j,v]
  | call {g : FuncId} {vs : List Operand} : g < m.funcTable.size →
      List.Forall₂ (Passes L m ns b n) vs (m.func g).params →
      Fits .call (m.func g).result none (.func g :: vs)
  | retNone : (m.func b.func).result = .void → Fits .ret .void none []
  | ret {v : Operand} {s : Scalar} : (m.func b.func).result = scalarType s →
      Has L m ns b n v (scalarType s) →
      Fits .ret .void none [v]
  | retVoid {j : InstrId} {c : BlockId} : L.voidReturn → j < n → (m.code.instr j).parent = some c →
      Above ns c b →
      (m.code.instr j).type = .void → Fits .ret .void none [.instr j]
  | br {c : BlockId} : Edge m ns b c → (∀ i, (ns c).role = .checked i → (ns b).role = .report) →
      Fits .br .void none [.block c]
  | condBr {v : Operand} {c d : BlockId} : Has L m ns b n v .i1 → Edge m ns b c → Edge m ns b d →
      (∀ i, (ns c).role ≠ .checked i) → (∀ i, (ns d).role = .checked i → IsSignTest m b n v i) →
      Fits .br .void none [v,.block c,.block d]

end

/-! Growth: what was there stays as it was. -/

structure Grows (m : Module) (ns : Notes) (m' : Module) (ns' : Notes) : Prop where
  fuller : m.Fuller m'
  instr : ∀ i < m.instrTable.size, m'.code.instr i = m.code.instr i
  literal : ∀ c < m.literalTable.size, m'.code.literal c = m.code.literal c
  global : ∀ g < m.globalTable.size, m'.code.global g = m.code.global g
  name : ∀ f < m.funcTable.size, (m'.func f).name = (m.func f).name
  result : ∀ f < m.funcTable.size, (m'.func f).result = (m.func f).result
  params : ∀ f < m.funcTable.size, (m'.func f).params = (m.func f).params
  declared : ∀ f < m.funcTable.size, ((m'.func f).layout = [] ↔ (m.func f).layout = [])
  listed : ∀ b, m.Listed b → m'.Listed b
  notes : ∀ b, m.Listed b → ns' b = ns b
  work : ∀ b, m.work b <+: m'.work b

/-- Every block but the entries has one above it, made before. -/
structure Tree (m : Module) (ns : Notes) : Prop where
  up : ∀ b c, m.Listed b → (ns b).up = some c → m.Listed c ∧ c.func = b.func ∧ c.number < b.number
  root : ∀ b, m.Listed b → ((ns b).up = none ↔ b.number = 0)
  plain : ∀ b, m.Listed b → b.number = 0 → (ns b).role = .plain

namespace Grows
variable {L : Law} {m m' m'' : Module} {ns' ns'' : Notes} {b' : BlockId} {n n' : InstrId}
  {v : Operand} {t : Ty}

theorem refl (m : Module) (ns : Notes) : Grows m ns m ns where
  fuller := .refl m
  instr _ _ := rfl
  literal _ _ := rfl
  global _ _ := rfl
  name _ _ := rfl
  result _ _ := rfl
  params _ _ := rfl
  declared _ _ := Iff.rfl
  listed _ h := h
  notes _ _ := rfl
  work _ := List.prefix_rfl

variable (h : Grows m ns m' ns')
include h

theorem trans (h' : Grows m' ns' m'' ns'') : Grows m ns m'' ns'' where
  fuller := h.fuller.trans h'.fuller
  instr i hi := (h'.instr i (hi.trans_le h.fuller.instrs)).trans (h.instr i hi)
  literal i hi := (h'.literal i (hi.trans_le h.fuller.literals)).trans (h.literal i hi)
  global i hi := (h'.global i (hi.trans_le h.fuller.globals)).trans (h.global i hi)
  name i hi := (h'.name i (hi.trans_le h.fuller.funcs)).trans (h.name i hi)
  result i hi := (h'.result i (hi.trans_le h.fuller.funcs)).trans (h.result i hi)
  params i hi := (h'.params i (hi.trans_le h.fuller.funcs)).trans (h.params i hi)
  declared i hi := (h'.declared i (hi.trans_le h.fuller.funcs)).trans (h.declared i hi)
  listed b hb := h'.listed b (h.listed b hb)
  notes b hb := (h'.notes b (h.listed b hb)).trans (h.notes b hb)
  work b := (h.work b).trans (h'.work b)

theorem above (ht : Tree m ns) (hb : m.Listed b) (ha : Above ns a b) :
    Above ns' a b := by
  induction ha with
  | refl => exact .refl
  | @step b c hu _ ih => exact .step (by rw [h.notes b hb]; exact hu) (ih (ht.up b c hb hu).1)

theorem full : m.instrTable.size ≤ m.instrTable.size ∧ m.instrTable.size ≤ m'.instrTable.size :=
  ⟨Nat.le_refl _,h.fuller.instrs⟩

theorem has (ht : Tree m ns) (hb : m.Listed b) (hn : n ≤ m.instrTable.size ∧ n ≤ n')
    (hb' : Above ns' b b') (hv : Has L m ns b n v t) : Has L m' ns' b' n' v t := by
  cases hv with
  | int hc hk hl => exact .int (hc.trans_le h.fuller.literals) ((h.literal _ hc).trans hk) hl
  | float hc hk => exact .float (hc.trans_le h.fuller.literals) ((h.literal _ hc).trans hk)
  | instr hj hp ha ht' hv =>
    have hi := h.instr _ (hj.trans_le hn.1)
    exact .instr (hj.trans_le hn.2) (by rw [hi]; exact hp) ((h.above ht hb ha).trans hb')
      (by rw [hi]; exact ht') hv

theorem contents (hg : g < m.globalTable.size) : m'.code.contents g = m.code.contents g :=
  congrArg Global.contents (h.global g hg)

theorem isZero (hv : IsZero m v) : IsZero m' v := by
  obtain ⟨c,rfl,hc,hk⟩ := hv
  exact ⟨c,rfl,hc.trans_le h.fuller.literals,(h.literal c hc).trans hk⟩

theorem place (hn : n ≤ m.instrTable.size ∧ n ≤ n')
    (hv : Place m n f v t) : Place m' n' f v t := by
  cases hv with
  | global hg ht => exact .global (hg.trans_le h.fuller.globals) ((h.contents hg).trans ht)
  | slot hj hp ho ht hx =>
    have hi := h.instr _ (hj.trans_le hn.1)
    exact .slot (hj.trans_le hn.2) (by rw [hi]; exact hp) (by rw [hi]; exact ho)
      (by rw [hi]; exact ht)
      (by rw [hi]; exact hx)

theorem received (hn : n ≤ m.instrTable.size ∧ n ≤ n')
    (hv : Received m n f j) : Received m' n' f j := by
  obtain ⟨s,hs,k,hp,ho,hv⟩ := hv
  have hi := h.instr _ (hs.trans_le hn.1)
  exact ⟨s,hs.trans_le hn.2,k,by rw [hi]; exact hp,by rw [hi]; exact ho,by rw [hi]; exact hv⟩

theorem isBase (hj : j < m.instrTable.size) (hv : IsBase m j) : IsBase m' j := by
  have hi := h.instr j hj
  rcases hv with hv | ⟨ho,p,z,z',hv,hz⟩
  · exact .inl (by rw [hi]; exact hv)
  · exact .inr ⟨by rw [hi]; exact ho,p,z,z',by rw [hi]; exact hv,h.isZero hz⟩

theorem passes (ht : Tree m ns) (hb : m.Listed b) (hn : n ≤ m.instrTable.size ∧ n ≤ n')
    (hb' : Above ns' b b') (hv : Passes L m ns b n v t) : Passes L m' ns' b' n' v t := by
  cases hv with
  | value hv => exact .value (h.has ht hb hn hb' hv)
  | array hv hj =>
    refine .array (h.has ht hb hn hb' hv) (h.isBase ?_ hj)
    cases hv with
    | instr hj => exact hj.trans_le hn.1

theorem edge (ht : Tree m ns) (hb : m.Listed b) (he : Edge m ns b c) : Edge m' ns' b c := by
  obtain ⟨hf,hl,u,hu,ha⟩ := he
  exact ⟨hf,h.listed c hl,u,by rw [h.notes c hl]; exact hu,h.above ht hb ha⟩

theorem isSignTest (hn : n ≤ m.instrTable.size ∧ n ≤ n') {i : Operand}
    (hv : IsSignTest m b n v i) : IsSignTest m' b n' v i := by
  obtain ⟨j,z,rfl,hj,hp,ho,hv,hz⟩ := hv
  have hi := h.instr j (hj.trans_le hn.1)
  exact ⟨j,z,rfl,hj.trans_le hn.2,by rw [hi]; exact hp,by rw [hi]; exact ho,by rw [hi]; exact hv,
    h.isZero hz⟩

theorem guarded (hn : n ≤ m.instrTable.size ∧ n ≤ n') (hv : Guarded m ns b n) :
    Guarded m' ns' b n' := by
  obtain ⟨t,ht,q,hq,hp,hb,hr⟩ := hv
  have hi := h.instr t (ht.trans_le hn.1)
  exact ⟨t,ht.trans_le hn.2,q,h.listed q hq,by rw [hi]; exact hp,
    by rw [Module.targets_congr hi]; exact hb,by rw [h.notes q hq]; exact hr⟩

theorem entered (hn : n ≤ m.instrTable.size ∧ n ≤ n') (hv : Entered m b n) : Entered m' b n' := by
  refine hv.imp_right fun hv => ?_
  obtain ⟨t,ht,hb⟩ := hv
  exact ⟨t,ht.trans_le hn.2,by rw [Module.targets_congr (h.instr t (ht.trans_le hn.1))]; exact hb⟩

theorem elsewhere (hn : n ≤ m.instrTable.size) (hv : Has L m ns b n v t) (he : Elsewhere m b' v) :
    Elsewhere m' b' v := by
  rintro j rfl
  cases hv with
  | instr hj =>
    rw [h.instr j (hj.trans_le hn)]
    exact he j rfl

theorem isReport (hv : IsReport m op vs) : IsReport m' op vs := by
  obtain ⟨ho,g,hvs,hg,hl,hn⟩ := hv
  exact ⟨ho,g,hvs,hg.trans_le h.fuller.funcs,(h.declared g hg).mpr hl,(h.name g hg).trans hn⟩

theorem fits (ht : Tree m ns) (hb : m.Listed b) (hf : b.func < m.funcTable.size)
    (hn : n ≤ m.instrTable.size) {object : Option Ty} (hx : Fits L m ns b n op t object vs) :
    Fits L m' ns' b n op t object vs := by
  have has {v : Operand} {t : Ty} (hv : Has L m ns b n v t) : Has L m' ns' b n v t :=
    h.has ht hb ⟨hn,Nat.le_refl n⟩ .refl hv
  have instr {j : InstrId} {t : Ty} (hv : Has L m ns b n (.instr j) t) :
      m'.code.instr j = m.code.instr j := by
    cases hv with
    | instr hj => exact h.instr j (hj.trans_le hn)
  have place {v : Operand} {t : Ty} (hv : Place m n b.func v t) : Place m' n b.func v t :=
    h.place ⟨hn,Nat.le_refl n⟩ hv
  cases hx with
  | int hx hy => exact .int (has hx) (has hy)
  | float hx hy => exact .float (has hx) (has hy)
  | icmp hx hy => exact .icmp (has hx) (has hy)
  | fcmp hx hy => exact .fcmp (has hx) (has hy)
  | zext hx => exact .zext (has hx)
  | fptosi hx => exact .fptosi (has hx)
  | sitofp hx => exact .sitofp (has hx)
  | alloca hb ht => exact .alloca hb ht
  | loadVariable hp => exact .loadVariable (place hp)
  | loadReference hp hr => exact .loadReference (place hp) (h.received ⟨hn,Nat.le_refl n⟩ hr)
  | loadElement hp ho hb =>
    exact .loadElement (has hp) (by rw [instr hp]; exact ho) (by rw [instr hp]; exact hb)
  | storeVariable hv hp => exact .storeVariable (has hv) (place hp)
  | storeParam hb hk hp => exact .storeParam hb (by rw [h.params _ hf]; exact hk) (place hp)
  | storeElement hv hp ho => exact .storeElement (has hv) (has hp) (by rw [instr hp]; exact ho)
  | gepElement hp hz hv he hr hg =>
    exact .gepElement (place hp) (h.isZero hz) (has hv) (h.elsewhere hn hv he)
      (by rw [h.notes b hb]; exact hr) (h.guarded ⟨hn,Nat.le_refl n⟩ hg)
  | gepFirst hp hz hz' => exact .gepFirst (place hp) (h.isZero hz) (h.isZero hz')
  | gepOffset hp ho hv he hr hg =>
    exact .gepOffset (has hp) (by rw [instr hp]; exact ho) (has hv) (h.elsewhere hn hv he)
      (by rw [h.notes b hb]; exact hr)
      (h.guarded ⟨hn,Nat.le_refl n⟩ hg)
  | @call g vs hg hvs =>
    rw [← h.result g hg]
    refine .call (hg.trans_le h.fuller.funcs) ?_
    rw [h.params g hg]
    exact hvs.imp fun _ _ hv => h.passes ht hb ⟨hn,Nat.le_refl n⟩ .refl hv
  | retNone hr => exact .retNone (by rw [h.result _ hf]; exact hr)
  | ret hr hv => exact .ret (by rw [h.result _ hf]; exact hr) (has hv)
  | retVoid hl hj hp ha hv =>
    have hi := h.instr _ (hj.trans_le hn)
    exact .retVoid hl hj (by rw [hi]; exact hp) (h.above ht hb ha) (by rw [hi]; exact hv)
  | br he hr =>
    refine .br (h.edge ht hb he) ?_
    rw [h.notes b hb,h.notes _ he.listed]
    exact hr
  | condBr hv hc hd hr hr' =>
    refine .condBr (has hv) (h.edge ht hb hc) (h.edge ht hb hd) ?_ fun i hi => ?_
    · rw [h.notes _ hc.listed]
      exact hr
    · rw [h.notes _ hd.listed] at hi
      exact h.isSignTest ⟨hn,Nat.le_refl n⟩ (hr' i hi)

end Grows
end CMinusF.Lowering
