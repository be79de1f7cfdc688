import CMinusF.Proofs.Machine.Calls
import CMinusF.Proofs.Safety.Frame

/-! What the instruction first in line can do. -/
namespace CMinusF
open Lowering Numeric List
variable {t : Ty} {op : Opcode} {o n : Nat} {b : BlockId} {vs : List Operand} {g : FuncId}
namespace Safety

def Accesses (m : Module) (i : InstrId) (p : Operand) : Prop :=
  (m.instr i).op = .load ∧ m.operands i = [p] ∨ (m.instr i).op = .store ∧ ∃ v, m.operands i = [v,p]

/-- An access to an element behind the end of its array. -/
def Beyond (m : Module) (w : World) (a : Activation) (i : InstrId) : Prop :=
  ∃ j, Accesses m i (.instr j) ∧ (m.instr j).op = .gep ∧
    ∃ o, (a.registers.get j).address.object = some o ∧
      (w.heap.get o).length ≤ (a.registers.get j).address.index

inductive Excused (m : Module) (w : World) (a : Activation) (i : InstrId) : Fault → Prop where
  | divideByZero : Excused m w a i .divideByZero
  | negativeIndex : Excused m w a i .negativeIndex
  | input (e : InputError) : Excused m w a i (.input e)
  | outOfBounds : Beyond m w a i → Excused m w a i .outOfBounds
  | tooLong : ¬m.Affords a.block.func → Excused m w a i .tooLong

/-- A caller waits for a function that has code. -/
def Waits (m : Module) (a : Activation) : Prop :=
  ∃ i r g vs, a.rest = i :: r ∧ (m.code.instr i).op = .call ∧
    (m.code.instr i).operands = .func g :: vs ∧ (m.func g).layout ≠ []

/-- What is left when the instruction `i` of an activation that has executed `l` has been executed.
-/
def Acts (m : Module) (ns : Notes) (slots : Nat → Prop) (w : World) (a : Activation)
    (l : List InstrId) (i : InstrId) :
    Run.Action → Prop
  | .go w' a' =>
    ∃ slots' pre, Memory w'.heap slots' ∧ Later w.heap slots w'.heap slots' ∧
      w'.globals = w.globals ∧
      Frame m ns w.globals w'.heap slots' a' pre (i :: l)
  | .call w' c =>
    w'.heap = w.heap ∧ w'.globals = w.globals ∧
      Frame m ns w.globals w.heap slots c [] [] ∧ Waits m a
  | .done v => IsWord v.int
  | .fault _ e => Excused m w a i e

abbrev outcome (m : Module) (w : World) (a : Activation) (i : InstrId) :
    Heap × Except Fault Datum :=
  Operation.execute (m.instr i) ((m.instr i).operands.map (a.eval m w.globals)) w.heap

end Safety

section
open Safety
variable {L : Law} {m : Module} {ns : Notes} {slots : Nat → Prop} {w : World} {a : Activation}
  {pre l r : List InstrId} {i : InstrId} {x : Datum} {h : Heap}

namespace IsInstr
variable {p v : Operand}

theorem ne (hi : IsInstr m i op t vs) {op' : Opcode} (h : op ≠ op') : (m.code.instr i).op ≠ op' :=
  fun h' => h (hi.op.symm.trans h')

theorem load_some (hi : IsInstr m i .load t [p])
    (hc : w.heap.cell? (a.eval m w.globals p).address = some (o,n)) :
    outcome m w a i = (w.heap,.ok ((w.heap.get o).cells.get n)) := by
  have hv : (m.instr i).operands = [p] := hi.operands
  rw [outcome,Operation.execute,hi.op,hv]
  simp only [map_cons,getD_cons_zero,Heap.read?,hc,Option.map_some]

theorem load_none (hi : IsInstr m i .load t [p])
    (hc : w.heap.cell? (a.eval m w.globals p).address = none) :
    outcome m w a i = (w.heap,.error .outOfBounds) := by
  have hv : (m.instr i).operands = [p] := hi.operands
  rw [outcome,Operation.execute,hi.op,hv]
  simp only [map_cons,getD_cons_zero,Heap.read?,hc,Option.map_none]

theorem store_some (hi : IsInstr m i .store t [v,p])
    (hc : w.heap.cell? (a.eval m w.globals p).address = some (o,n)) :
    outcome m w a i = (w.heap.write o n (a.eval m w.globals v),.ok .zero) := by
  have hv : (m.instr i).operands = [v,p] := hi.operands
  rw [outcome,Operation.execute,hi.op,hv]
  simp only [map_cons,getD_cons_zero,getD_cons_succ,hc]

theorem store_none (hi : IsInstr m i .store t [v,p])
    (hc : w.heap.cell? (a.eval m w.globals p).address = none) :
    outcome m w a i = (w.heap,.error .outOfBounds) := by
  have hv : (m.instr i).operands = [v,p] := hi.operands
  rw [outcome,Operation.execute,hi.op,hv]
  simp only [map_cons,getD_cons_zero,getD_cons_succ,hc]

theorem gep (hi : IsInstr m i .gep t vs) : outcome m w a i =
    (w.heap,.ok (.ofAddress ⟨((vs.map (a.eval m w.globals)).getD 0 .zero).address.object,
      ((vs.map (a.eval m w.globals)).getD 0 .zero).address.index +
      wrap32 ((vs.map (a.eval m w.globals)).getD ((vs.map (a.eval m w.globals)).length - 1)
        .zero).int⟩)) := by
  have hv : (m.instr i).operands = vs := hi.operands
  rw [outcome,Operation.execute,hi.op,hv]

theorem fault (hi : IsInstr m i op t vs) (hop : op ≠ .ret ∧ op ≠ .br ∧ op ≠ .call) {e : Fault}
    (hexec : outcome m w a i = (h,.error e)) (he : Excused m w a i e) :
    Acts m ns slots w a l i (Run.action m w a i) := by
  rw [outcome] at hexec
  rw [Run.action_execute (hi.ne hop.1) (hi.ne hop.2.1) (hi.ne hop.2.2),hexec]
  exact he

theorem ret (hi : IsInstr m i .ret t vs) (hx : ∀ v ∈ vs, IsWord (a.eval m w.globals v).int) :
    Acts m ns slots w a l i (Run.action m w a i) := by
  have hv : (m.instr i).operands = vs := hi.operands
  rw [Run.action_ret hi.op,hv]
  cases vs with
  | nil => exact isWord_zero
  | cons v vs => exact hx v mem_cons_self

end IsInstr

namespace Safety

theorem isWord_truncate (x : Binary32) : IsWord (Operation.truncate x) := by
  unfold Operation.truncate
  split
  · split
    · rename_i n _ h
      rw [← h]
      exact isWord_wrap32 n
    · decide
  · decide

theorem isWord_value {x : Input.Numeral} {n : Int} (h : x.value = .ok n) : IsWord n := by
  unfold Input.Numeral.value at h
  split at h
  · cases h
  split at h
  · cases h
  rename_i k _
  split at h
  · cases h
  dsimp only at h
  generalize (if x.sign = ['-'] then -(k : Int) else k) = v at h
  split at h
  · cases h
  split at h
  · cases h
  · cases h
    rename_i hrange
    exact ⟨Int.not_lt.mp fun hlt => hrange (.inl hlt),Int.not_lt.mp fun hlt => hrange (.inr hlt)⟩

theorem isWord_readInteger {cs rest : List Char} {n : Int}
    (h : Input.readInteger cs = (.ok n,rest)) : IsWord n := by
  unfold Input.readInteger at h
  split at h
  · cases h
  split at h
  · exact isWord_value (Prod.mk.inj h).1
  · cases h

theorem isWord_mod_two (n : Int) : IsWord (n % 2) := by
  unfold IsWord
  omega

theorem Result.of_word (hi : IsInstr m i op t vs) (hop : op ≠ .alloca)
    (ht : t = .void ∨ ∃ s, t = scalarType s) (hw : IsWord x.int) :
    Result m h slots i x := by
  refine ⟨hw,fun hbit => ?_,fun _ ho => absurd ho (hi.ne hop),fun t' _ hp => ?_⟩
  · have : t = .i1 := hi.type.symm.trans hbit
    rcases ht with rfl | ⟨_ | _,rfl⟩ <;> cases this
  · have : t = .pointer t' := hi.type.symm.trans hp
    rcases ht with rfl | ⟨_ | _,rfl⟩ <;> cases this

theorem isWord_ofBool (b : Bool) : IsWord (Datum.ofBool b).int := by cases b <;> decide

theorem Result.of_bool (hi : IsInstr m i op .i1 vs) (hop : op ≠ .alloca) (b : Bool) :
    Result m h slots i (.ofBool b) := by
  refine ⟨isWord_ofBool b,fun _ => ?_,fun _ ho => absurd ho (hi.ne hop),fun t _ hp => ?_⟩
  · cases b
    · exact .inl rfl
    · exact .inr rfl
  · cases hi.type.symm.trans hp

theorem Result.of_address {y : Address} (hi : IsInstr m i op (.pointer t) vs) (hop : op ≠ .alloca)
    (hy : Element h slots y) (hb : IsBase m i → y.index = 0) :
    Result m h slots i (.ofAddress y) := by
  refine ⟨isWord_zero,fun hbit => ?_,fun _ ho => absurd ho (hi.ne hop),fun _ _ _ => ⟨hy,hb⟩⟩
  cases hi.type.symm.trans hbit

/-- An activation about to execute the instruction `i`. -/
structure Poised (L : Law) (m : Module) (ns : Notes) (slots : Nat → Prop) (w : World)
    (a : Activation) (pre l : List InstrId) (i : InstrId) (r : List InstrId) : Prop where
  frame : Frame m ns w.globals w.heap slots a pre l
  whole : Whole L m ns
  memory : Memory w.heap slots
  globals : HasGlobals m w.globals w.heap slots
  rest : a.rest = i :: r

namespace Poised
variable {u v p : Operand} {s : Scalar} {j : InstrId}

variable (hp : Poised L m ns slots w a pre l i r)
include hp

theorem word (hv : Has L m ns a.block i v t) : IsWord (a.eval m w.globals v).int :=
  hp.frame.eval_word hp.whole hv

theorem place (hop : (m.code.instr i).op ≠ .alloca) (hv : Place m i a.block.func v t) :
    Variable w.heap slots (∃ t', t = .pointer t') (a.eval m w.globals v).address :=
  hp.frame.place hp.whole hp.globals hp.rest hop hv

theorem pointer (hop : (m.code.instr i).op ≠ .alloca)
    (hv : Has L m ns a.block i (.instr j) (.pointer t)) (hj : (m.code.instr j).op ≠ .alloca) :
    Element w.heap slots (a.registers.get j).address ∧
    (IsBase m j → (a.registers.get j).address.index = 0) :=
  hp.frame.pointer hp.whole hp.rest hop hv hj

/-- An instruction that computes a value and changes memory at most by what follows it. -/
theorem go {slots' : Nat → Prop}
    (hop : (m.code.instr i).op ≠ .ret ∧ (m.code.instr i).op ≠ .br ∧ (m.code.instr i).op ≠ .call)
    (hexec : outcome m w a i = (h,.ok x))
    (hmem : Memory h slots') (hl : Later w.heap slots h slots') (hx : Result m h slots' i x)
    (hfill : ∀ f k j, (m.code.instr i).op = .store →
      (m.code.instr i).operands = [.arg f k,.instr j] → Stored m h a l j)
    (htest : ∀ rel y z, (m.code.instr i).op = .icmp rel → (m.code.instr i).operands = [y,z] →
      x = .ofBool (Operation.compare rel (a.eval m w.globals y).int (a.eval m w.globals z).int)) :
    Acts m ns slots w a l i (Run.action m w a i) := by
  obtain ⟨hret,hbr,hcall⟩ := hop
  have hterm : (m.instr i).op.isTerminator = false := by
    rw [m.op_eq_code]
    cases ho : (m.code.instr i).op <;> first | rfl | exact absurd ho hret | exact absurd ho hbr
  rw [outcome] at hexec
  rw [Run.action_execute hret hbr hcall,hexec]
  exact ⟨slots',pre ++ [i],hmem,hl,rfl,
    (hp.frame.later hl).advance hp.whole hp.rest hterm hx hfill htest
    fun _ hrep => hcall hrep.1⟩

theorem value (hi : IsInstr m i op t vs)
    (hop : op ≠ .ret ∧ op ≠ .br ∧ op ≠ .call ∧ op ≠ .store ∧ ∀ rel, op ≠ .icmp rel)
    (hexec : outcome m w a i = (w.heap,.ok x)) (hx : Result m w.heap slots i x) :
    Acts m ns slots w a l i (Run.action m w a i) :=
  hp.go ⟨hi.ne hop.1,hi.ne hop.2.1,hi.ne hop.2.2.1⟩ hexec hp.memory (.refl _ _) hx
    (fun _ _ _ ho => absurd ho (hi.ne hop.2.2.2.1))
    fun rel _ _ ho => absurd ho (hi.ne (hop.2.2.2.2 rel))

theorem int {o : Arith} (hi : IsInstr m i (.int o) .i32 vs) :
    Acts m ns slots w a l i (Run.action m w a i) := by
  obtain ⟨y,z,hexec⟩ : ∃ y z, outcome m w a i = (w.heap,(Operation.arith o y z).map .ofInt) :=
    ⟨_,_,by rw [outcome,Operation.execute,hi.op]⟩
  -- only a division can fail
  have harith : (∃ n, Operation.arith o y z = .ok n ∧ IsWord n) ∨
      Operation.arith o y z = .error .divideByZero := by
    simp only [Operation.arith]
    split
    · exact .inl ⟨_,rfl,isWord_wrap32 _⟩
    · exact .inl ⟨_,rfl,isWord_wrap32 _⟩
    · exact .inl ⟨_,rfl,isWord_wrap32 _⟩
    · split
      · exact .inr rfl
      · exact .inl ⟨_,rfl,isWord_wrap32 _⟩
  rcases harith with ⟨n,hn,hw⟩ | hn <;> rw [hn] at hexec
  · exact hp.value hi (by simp) hexec (.of_word hi Opcode.noConfusion (.inr ⟨.int,rfl⟩) hw)
  · exact hi.fault (by simp) hexec .divideByZero

theorem executed (hop : (m.code.instr i).op ≠ .alloca) {f : FuncId}
    (hf : f = a.block.func) (hj : j < i) (hpar : (m.code.instr j).parent = some ⟨f,0⟩) : j ∈ l :=
  hp.frame.executed hp.whole hp.rest hop hj hpar (hf ▸ hp.whole.above_entry hp.frame.listed)

/-! Memory. -/

theorem alloca (hi : IsInstr m i .alloca (.pointer t) vs) (hob : (m.instr i).object = some t) :
    Acts m ns slots w a l i (Run.action m w a i) := by
  have hlength : ((m.instr i).object.getD .void).length = t.length := by rw [hob]; rfl
  by_cases hlen : ((m.instr i).object.getD .void).length ≤ Object.limit
  swap
  · refine hi.fault (by simp) (Operation.execute_alloca_of_lt hi.op (Int.not_le.mp hlen) _ _)
      (.tooLong fun h => hlen (h i ?_ hi.op))
    exact Module.mem_instrs_iff.mpr ⟨a.block,hp.frame.listed,hp.frame.mem hp.rest⟩
  obtain ⟨hmem,hl,hvar⟩ := hp.memory.extend t.length (∃ t', t = .pointer t')
  refine hp.go ⟨hi.ne Opcode.noConfusion,hi.ne Opcode.noConfusion,hi.ne Opcode.noConfusion⟩
    (h := (w.heap.extend (.zeros t.length)).1) (x := .ofAddress ⟨some w.heap.size,0⟩) ?_ hmem hl
    ⟨isWord_zero,fun hbit => ?_,fun t' _ ht' => ?_,fun _ hne => absurd hi.op hne⟩
    (fun _ _ _ hst => ?_) fun _ _ _ hcmp => ?_
  · rw [outcome,Operation.execute_alloca_of_le hi.op hlen,hlength]
  · cases hi.type.symm.trans hbit
  · cases hob.symm.trans ht'
    exact hvar
  · cases hi.op.symm.trans hst
  · cases hi.op.symm.trans hcmp

theorem loadVariable (hi : IsInstr m i .load (scalarType s) [p])
    (hx : Place m i a.block.func p (scalarType s)) :
    Acts m ns slots w a l i (Run.action m w a i) := by
  obtain ⟨o,-,-,-,hc⟩ := (hp.place (hi.ne Opcode.noConfusion) hx).cell? hp.memory
  exact hp.value hi (by simp) (hi.load_some hc)
    (.of_word hi Opcode.noConfusion (.inr ⟨s,rfl⟩) (hp.memory.word o 0))

theorem loadReference (hi : IsInstr m i .load (.pointer (scalarType s)) [.instr j])
    (hx : Place m i a.block.func (.instr j) (.pointer (scalarType s)))
    (hr : Received m i a.block.func j) :
    Acts m ns slots w a l i (Run.action m w a i) := by
  have hop : (m.code.instr i).op ≠ .alloca := hi.ne Opcode.noConfusion
  obtain ⟨o,hao,-,hs,hc⟩ := (hp.place hop hx).cell? hp.memory
  obtain ⟨k,hk,n,hpar,hst,hvs⟩ := hr
  obtain ⟨-,-,hfill⟩ := hp.frame.filled k (hp.executed hop rfl hk hpar) _ _ _ hst hvs
  have hobj : (m.code.instr j).object = some (.pointer (scalarType s)) := by
    cases hx with
    | slot _ _ _ _ hob => exact hob
  have hfirst := hp.memory.held o (hs.mpr ⟨_,rfl⟩) (hfill _ hobj o hao)
  refine hp.value hi (by simp) (hi.load_some hc)
    ⟨hp.memory.word o 0,fun hbit => ?_,fun _ h => absurd h hop,fun _ _ _ =>
    ⟨hfirst.1,fun _ => hfirst.2⟩⟩
  cases hi.type.symm.trans hbit

theorem loadElement (hi : IsInstr m i .load (scalarType s) [.instr j])
    (hx : Has L m ns a.block i (.instr j) (.pointer (scalarType s)))
    (hj : (m.code.instr j).op = .gep) : Acts m ns slots w a l i (Run.action m w a i) := by
  obtain ⟨o,hao,-,-,⟨n,hc⟩ | ⟨hc,hle⟩⟩ :=
    (hp.pointer (hi.ne Opcode.noConfusion) hx (by rw [hj]; exact Opcode.noConfusion)).1.cell?
  · exact hp.value hi (by simp) (hi.load_some hc)
      (.of_word hi Opcode.noConfusion (.inr ⟨s,rfl⟩) (hp.memory.word o n))
  · exact hi.fault (by simp) (hi.load_none hc)
      (.outOfBounds ⟨j,.inl ⟨hi.op,hi.operands⟩,hj,o,hao,hle⟩)

theorem store (hi : IsInstr m i .store .void [v,p])
    (hc : w.heap.cell? (a.eval m w.globals p).address = some (o,n))
    (hw : Memory (w.heap.write o n (a.eval m w.globals v)) slots ∧
      Later w.heap slots (w.heap.write o n (a.eval m w.globals v)) slots)
    (hfill : ∀ f k j, v = .arg f k → p = .instr j →
      Stored m (w.heap.write o n (a.eval m w.globals v)) a l j) : Acts m ns slots w a l i
        (Run.action m w a i) := by
  refine hp.go ⟨hi.ne Opcode.noConfusion,hi.ne Opcode.noConfusion,hi.ne Opcode.noConfusion⟩
    (hi.store_some hc) hw.1 hw.2
    (.of_word hi Opcode.noConfusion (.inl rfl) isWord_zero)
      (fun f k j _ hvs => ?_) fun rel y z hcmp => ?_
  · cases hi.operands.symm.trans hvs
    exact hfill f k j rfl rfl
  · cases hi.op.symm.trans hcmp

theorem storeWord (hi : IsInstr m i .store .void [v,p]) (hx : Has L m ns a.block i v t)
    (hlt : o < w.heap.size) (hs : ¬ slots o)
    (hc : w.heap.cell? (a.eval m w.globals p).address = some (o,n)) :
    Acts m ns slots w a l i (Run.action m w a i) := by
  refine hp.store hi hc (hp.memory.write hlt (hp.word hx) fun h => absurd h hs) ?_
  rintro f k j rfl
  cases hx

theorem storeVariable (hi : IsInstr m i .store .void [v,p]) (hx : Has L m ns a.block i v t)
    (hpl : Place m i a.block.func p (scalarType s)) :
    Acts m ns slots w a l i (Run.action m w a i) := by
  obtain ⟨o,-,hlt,hs,hc⟩ := (hp.place (hi.ne Opcode.noConfusion) hpl).cell? hp.memory
  refine hp.storeWord hi hx hlt (fun h => ?_) hc
  obtain ⟨t',ht'⟩ := hs.mp h
  cases s <;> cases ht'

theorem storeElement (hi : IsInstr m i .store .void [v,.instr j]) (hx : Has L m ns a.block i v t)
    (hy : Has L m ns a.block i (.instr j) (.pointer (scalarType s)))
    (hj : (m.code.instr j).op = .gep) :
    Acts m ns slots w a l i (Run.action m w a i) := by
  obtain ⟨o,hao,hlt,hs,⟨n,hc⟩ | ⟨hc,hle⟩⟩ :=
    (hp.pointer (hi.ne Opcode.noConfusion) hy (by rw [hj]; exact Opcode.noConfusion)).1.cell?
  · exact hp.storeWord hi hx hlt hs hc
  · exact hi.fault (by simp) (hi.store_none hc)
      (.outOfBounds ⟨j,.inr ⟨hi.op,v,hi.operands⟩,hj,o,hao,hle⟩)

theorem storeParam {k : Nat} (hi : IsInstr m i .store .void [.arg a.block.func k,.instr j])
    (hk : (m.func a.block.func).params[k]? = some t) (hpl : Place m i a.block.func (.instr j) t) :
    Acts m ns slots w a l i (Run.action m w a i) := by
  have hop : (m.code.instr i).op ≠ .alloca := hi.ne Opcode.noConfusion
  obtain ⟨o,hao,hlt,hs,hc⟩ := (hp.place hop hpl).cell? hp.memory
  have heval : a.eval m w.globals (.arg a.block.func k) = a.args.getD k .zero :=
    if_pos hp.frame.func
  rw [hp.frame.func] at hk
  have harg := hp.frame.args k t hk
  refine hp.store hi hc ?_ fun f k' j' _ hj' => ?_ <;> rw [heval]
  · refine hp.memory.write hlt harg.word fun h => ?_
    obtain ⟨t',ht'⟩ := hs.mp h
    exact harg.first t' ht'
  · cases hj'
    cases hpl with
    | slot hj hpar hjo _ hob =>
      refine ⟨hp.executed hop rfl hj hpar,hjo,fun t' ht' => ?_⟩
      cases hob.symm.trans ht'
      rintro o' ho'
      cases hao.symm.trans ho'
      obtain ⟨q,hq,-⟩ := (harg.first _ rfl).1
      rw [Heap.get_cells_write,if_pos ⟨rfl,rfl⟩,hq]
      exact Option.some_ne_none q

/-- The index of an element is not negative where its address is computed. -/
theorem index (hx : Has L m ns a.block i v .i32) (he : Elsewhere m a.block v)
    (hr : (ns a.block).role = .checked v) : 0 ≤ wrap32 (a.eval m w.globals v).int := by
  rw [(hp.word hx).wrap32]
  exact hp.frame.checked v hr he

theorem gepArray (hi : IsInstr m i .gep (.pointer t) [p,u,v]) {k : Int}
    (hpl : Place m i a.block.func p (.array k (scalarType s)))
    (hn : 0 ≤ wrap32 (a.eval m w.globals v).int)
    (hb : IsZero m v → wrap32 (a.eval m w.globals v).int = 0) :
    Acts m ns slots w a l i (Run.action m w a i) := by
  obtain ⟨o,hao,hlt,hs⟩ := hp.place (hi.ne Opcode.noConfusion) hpl
  refine hp.value hi (by simp) hi.gep (.of_address hi Opcode.noConfusion ?_ ?_) <;>
    simp only [map_cons,getD_cons_zero,hao,Int.zero_add]
  · refine ⟨o,rfl,hlt,fun h => ?_,hn⟩
    obtain ⟨t',ht'⟩ := hs.mp h
    cases ht'
  · rintro (hload | ⟨-,p',z,z',hvs,hz⟩)
    · cases hi.op.symm.trans hload
    · cases hi.operands.symm.trans hvs
      exact hb hz

theorem gepOffset (hi : IsInstr m i .gep (.pointer t) [.instr j,v])
    (hx : Has L m ns a.block i (.instr j) (.pointer (scalarType s)))
    (hj : (m.code.instr j).op = .load) (hn : 0 ≤ wrap32 (a.eval m w.globals v).int) :
    Acts m ns slots w a l i (Run.action m w a i) := by
  obtain ⟨⟨o,hao,hlt,hs,-⟩,hbase⟩ :=
    hp.pointer (hi.ne Opcode.noConfusion) hx (by rw [hj]; exact Opcode.noConfusion)
  have hzero := hbase (.inl hj)
  have heval : a.eval m w.globals (.instr j) = a.registers.get j := rfl
  refine hp.value hi (by simp) hi.gep (.of_address hi Opcode.noConfusion ?_ ?_) <;>
    simp only [map_cons,getD_cons_zero,heval,hao,hzero,Int.zero_add]
  · exact ⟨o,rfl,hlt,hs,hn⟩
  · rintro (hload | ⟨-,p',z,z',hvs,hz⟩)
    · cases hi.op.symm.trans hload
    · cases hi.operands.symm.trans hvs

/-! Control. -/

theorem br (hi : IsInstr m i .br t vs)
    (htarget : Run.branchTarget (a.eval m w.globals) vs = .block b) (he : Edge m ns a.block b)
    (hc : ∀ v, (ns b).role = .checked v → 0 ≤ (a.eval m w.globals v).int) :
    Acts m ns slots w a l i (Run.action m w a i) := by
  have hv : (m.instr i).operands = vs := hi.operands
  rw [Run.action_br hi.op,hv,htarget]
  exact ⟨slots,[],hp.memory,.refl _ _,rfl,hp.frame.enter hp.whole hp.rest hi.op he hc⟩

theorem not_report (ho : (m.code.instr i).op = .br) : (ns a.block).role ≠ .report := by
  intro hrole
  obtain ⟨hlt,hpar⟩ := hp.whole.member _ i (hp.frame.mem hp.rest)
  rcases hp.whole.report i hlt _ hpar hrole with hrep | ⟨j,hj,hjp,hrep⟩
  · rw [ho] at hrep
    cases hrep.1
  · have hjl := hp.whole.listed_of_parent (Nat.lt_trans hj hlt) hjp
    refine hp.frame.report hrole j
      (hp.whole.mem_before (by rw [hp.frame.split,hp.rest]) ?_ hjl.2 hj) hrep
    rw [m.op_eq_code,ho]
    exact Opcode.noConfusion

theorem nonnegative (ho : (m.code.instr i).op = .br) (ht : IsSignTest m a.block i u v)
    (hodd : Run.isOdd (a.eval m w.globals u).int = false) : 0 ≤ (a.eval m w.globals v).int := by
  obtain ⟨j,z,rfl,hj,hjp,hjo,hvs,hz⟩ := ht
  obtain ⟨hlt,hpar⟩ := hp.whole.member _ i (hp.frame.mem hp.rest)
  have hjl := hp.whole.listed_of_parent (Nat.lt_trans hj hlt) hjp
  have hpre : j ∈ pre := hp.whole.mem_before (by rw [hp.frame.split,hp.rest])
    (by rw [m.op_eq_code,ho]; exact Opcode.noConfusion) hjl.2 hj
  have htest := hp.frame.test j hpre _ _ _ hjo hvs
  have heval : a.eval m w.globals (.instr j) = a.registers.get j := rfl
  rw [heval,htest,Frame.eval_zero hz] at hodd
  by_contra hneg
  have hcmp : Operation.compare .lt (a.eval m w.globals v).int (Datum.ofInt 0).int = true :=
    decide_eq_true (Int.not_le.mp hneg)
  rw [hcmp] at hodd
  cases hodd

theorem condBr {c : BlockId} (hi : IsInstr m i .br t [v,.block b,.block c])
    (hb : Edge m ns a.block b) (hc : Edge m ns a.block c) (hr : ∀ i, (ns b).role ≠ .checked i)
    (hr' : ∀ j, (ns c).role = .checked j → IsSignTest m a.block i v j) :
    Acts m ns slots w a l i (Run.action m w a i) := by
  cases hodd : Run.isOdd (a.eval m w.globals v).int with
  | true =>
    refine hp.br hi ?_ hb fun u hu => absurd hu (hr u)
    rw [Run.branchTarget,if_pos hodd]
  | false =>
    refine hp.br hi ?_ hc fun u hu => hp.nonnegative hi.op (hr' u hu) hodd
    rw [Run.branchTarget,if_neg (by rw [hodd]; exact Bool.false_ne_true)]

theorem argument (ho : (m.code.instr i).op = .call) (hx : Passes L m ns a.block i v t) :
    Argument w.heap slots t (a.eval m w.globals v) := by
  have hop : (m.code.instr i).op ≠ .alloca := by rw [ho]; exact Opcode.noConfusion
  cases hx with
  | @value v s hv =>
    refine ⟨hp.word hv,fun t' ht' => ?_⟩
    cases s <;> cases ht'
  | @array j s s' hv hbase =>
    have hj : (m.code.instr j).op ≠ .alloca := by
      rcases hbase with hb | ⟨hb,-⟩ <;> rw [hb] <;> exact Opcode.noConfusion
    obtain ⟨hel,hb⟩ := hp.pointer hop hv hj
    exact ⟨hp.word hv,fun t' _ => ⟨hel,hb hbase⟩⟩

theorem arguments (ho : (m.code.instr i).op = .call) {ts : List Ty}
    (hx : List.Forall₂ (Passes L m ns a.block i) vs ts) :
    (∀ k, IsWord ((vs.map (a.eval m w.globals)).getD k .zero).int) ∧
      ∀ k t, ts[k]? = some t →
        Argument w.heap slots t ((vs.map (a.eval m w.globals)).getD k .zero) := by
  induction hx with
  | nil => exact ⟨fun k => isWord_zero,fun k t hk => by cases hk⟩
  | @cons v t vs ts hv _ ih =>
    have hv := hp.argument ho hv
    constructor
    · intro k
      cases k with
      | zero => exact hv.word
      | succ k => exact ih.1 k
    · grind

theorem builtin (hi : IsInstr m i .call (m.func g).result (.func g :: vs))
    (hg : g < m.funcTable.size) (hl : (m.func g).layout = []) (args : List Datum) :
    match Run.builtin (m.func g).name args (Run.countCall w (m.func g).name) with
    | (w',.ok x) => Acts m ns slots w a l i (.go w' (a.advance m x))
    | (_,.error e) => Excused m w a i e := by
  obtain ⟨b,hname,-,-⟩ := hp.whole.builtin g hg hl
  have hterm : (m.instr i).op.isTerminator = false := by
    rw [hi.op]
    rfl
  have hgo : ∀ w' : World, w'.heap = w.heap → w'.globals = w.globals → ∀ x, IsWord x.int →
    (m.func g).name ≠ Builtin.negativeIndex.name →
      Acts m ns slots w a l i (.go w' (a.advance m x)) := by
    intro w' hh hgl x hx hne
    refine ⟨slots,pre ++ [i],hh ▸ hp.memory,hh ▸ .refl _ _,hgl,
      hh ▸ hp.frame.advance hp.whole hp.rest hterm
      (.of_word hi Opcode.noConfusion (hp.whole.signature g hg).result hx) (fun _ _ _ hst => ?_)
        (fun rel _ _ hcmp => ?_) fun _ hrep => ?_⟩
    · cases hi.op.symm.trans hst
    · cases hi.op.symm.trans hcmp
    · obtain ⟨-,g',hvs,-,-,hn⟩ := hrep
      cases hi.operands.symm.trans hvs
      exact hne hn
  rw [hname]
  cases b with
  | input =>
    simp only [Run.builtin]
    rcases hread : Input.readInteger (Run.countCall w Builtin.input.name).input with ⟨e | n,rest⟩
    · exact .input e
    · exact hgo _ rfl rfl _ (isWord_readInteger hread) (by rw [hname]; decide)
  | output => exact hgo _ rfl rfl _ isWord_zero (by rw [hname]; decide)
  | outputFloat => exact hgo _ rfl rfl _ isWord_zero (by rw [hname]; decide)
  | negativeIndex => exact .negativeIndex

theorem call (hi : IsInstr m i .call (m.func g).result (.func g :: vs)) (hg : g < m.funcTable.size)
    (hx : List.Forall₂ (Passes L m ns a.block i) vs (m.func g).params) :
    Acts m ns slots w a l i (Run.action m w a i) := by
  have hcallee : m.callee? i = some g := by simp only [Module.callee?,hi.op,hi.operands]
  have hargs : m.callArgs i = vs := by
    simp only [Module.callArgs,hi.op,hi.operands,drop_succ_cons,drop_zero]
  rw [Run.action_call hi.op,hcallee,hargs]
  dsimp only
  split
  · rename_i hd
    have hl : (m.func g).layout = [] := by simpa [Func.isDeclaration] using hd
    have hb := hp.builtin hi hg hl (vs.map (a.eval m w.globals))
    rcases hbi : Run.builtin (m.func g).name (vs.map (a.eval m w.globals))
      (Run.countCall w (m.func g).name) with ⟨w',e | x⟩
    · rw [hbi] at hb
      exact hb
    · rw [hbi] at hb
      exact hb
  · rename_i hd
    have hl : (m.func g).layout ≠ [] := by simpa [Func.isDeclaration] using hd
    obtain ⟨hw,harg⟩ := hp.arguments hi.op hx
    exact ⟨rfl,rfl,.start hp.whole (hp.whole.listed_entry hl) hw harg,i,r,g,vs,hp.rest,hi.op,
      hi.operands,hl⟩

theorem acts : Acts m ns slots w a l i (Run.action m w a i) := by
  obtain ⟨hlt,hpar⟩ := hp.whole.member _ i (hp.frame.mem hp.rest)
  have hfits := hp.whole.fits i hlt _ hpar
  rw [FitsAt] at hfits
  generalize ho : (m.code.instr i).op = op at hfits
  have ho' : (m.instr i).op = op := ho
  generalize ht : (m.code.instr i).type = t at hfits
  generalize hob : (m.code.instr i).object = ob at hfits
  have hv : m.operands i = (m.code.instr i).operands := rfl
  generalize (m.code.instr i).operands = vs at hfits hv
  have hi : IsInstr m i op t vs := ⟨ho,ht,hv⟩
  cases hfits with
  | int hx hy => exact hp.int hi
  | float hx hy =>
    exact hp.value hi (by simp) (by rw [outcome,Operation.execute,ho'])
      (.of_word hi Opcode.noConfusion (.inr ⟨.float,rfl⟩) isWord_zero)
  | @icmp rel x y hx hy =>
    refine hp.go ⟨hi.ne Opcode.noConfusion,hi.ne Opcode.noConfusion,hi.ne Opcode.noConfusion⟩
      (by rw [outcome,Operation.execute,ho'])
      hp.memory (.refl _ _) (.of_bool hi Opcode.noConfusion _)
        (fun _ _ _ hst => ?_) fun rel' y' z' ho' hvs => ?_
    · cases ho.symm.trans hst
    · cases ho.symm.trans ho'
      cases hv.symm.trans hvs
      rw [show (m.instr i).operands = [x,y] from hv]
      rfl
  | fcmp hx hy =>
    exact hp.value hi (by simp) (by rw [outcome,Operation.execute,ho'])
      (.of_bool hi Opcode.noConfusion _)
  | zext hx =>
    exact hp.value hi (by simp) (by rw [outcome,Operation.execute,ho'])
      (.of_word hi Opcode.noConfusion (.inr ⟨.int,rfl⟩) (isWord_mod_two _))
  | fptosi hx =>
    exact hp.value hi (by simp) (by rw [outcome,Operation.execute,ho'])
      (.of_word hi Opcode.noConfusion (.inr ⟨.int,rfl⟩) (isWord_truncate _))
  | sitofp hx =>
    exact hp.value hi (by simp) (by rw [outcome,Operation.execute,ho'])
      (.of_word hi Opcode.noConfusion (.inr ⟨.float,rfl⟩) isWord_zero)
  | alloca hb hs => exact hp.alloca hi hob
  | loadVariable hx => exact hp.loadVariable hi hx
  | loadReference hx hrec => exact hp.loadReference hi hx hrec
  | loadElement hx hj => exact hp.loadElement hi hx hj
  | storeVariable hx hpl => exact hp.storeVariable hi hx hpl
  | storeParam hb hk hpl => exact hp.storeParam hi hk hpl
  | storeElement hx hy hj => exact hp.storeElement hi hx hy hj
  | gepElement hpl hz hx he hr =>
    refine hp.gepArray hi hpl (hp.index hx he hr) fun hz => ?_
    rw [Frame.eval_zero hz]
    rfl
  | @gepFirst p z z' k s hpl hz hz' =>
    have h0 : wrap32 (a.eval m w.globals z').int = 0 := by
      rw [Frame.eval_zero hz']
      rfl
    exact hp.gepArray hi hpl (Int.le_of_eq h0.symm) fun _ => h0
  | gepOffset hx hj hy he hr => exact hp.gepOffset hi hx hj (hp.index hy he hr)
  | call hg hx => exact hp.call hi hg hx
  | retNone hr => exact hi.ret fun v hx => absurd hx not_mem_nil
  | ret hr hx => exact hi.ret fun v hv => mem_singleton.mp hv ▸ hp.word hx
  | retVoid hl hj hjp ha hjt => exact hi.ret fun v hv => mem_singleton.mp hv ▸ hp.frame.word _
  | br he hr => exact hp.br hi rfl he fun v hc => absurd (hr v hc) (hp.not_report ho)
  | condBr hx hb hc hr hr' => exact hp.condBr hi hb hc hr hr'

theorem cell? (hx : Accesses m i p) (hj : ∀ j, p = .instr j → (m.instr j).op ≠ .gep) :
    (w.heap.cell? (a.eval m w.globals p).address).isSome = true := by
  obtain ⟨hlt,hpar⟩ := hp.whole.member _ i (hp.frame.mem hp.rest)
  have hfits := hp.whole.fits i hlt _ hpar
  have hcell : ∀ {t}, (m.code.instr i).op ≠ .alloca → Place m i a.block.func p t →
      (w.heap.cell? (a.eval m w.globals p).address).isSome = true := by
    intro t hop hpl
    obtain ⟨o,-,-,-,hc⟩ := (hp.place hop hpl).cell? hp.memory
    rw [hc]
    rfl
  rcases hx with ⟨ho,hv⟩ | ⟨ho,v,hv⟩
  · change (m.code.instr i).op = .load at ho
    have hop : (m.code.instr i).op ≠ .alloca := by rw [ho]; exact Opcode.noConfusion
    rcases hfits.load_inv ho hv with ⟨t,hpl⟩ | ⟨j,rfl,hgep⟩
    · exact hcell hop hpl
    · exact absurd hgep (hj j rfl)
  · change (m.code.instr i).op = .store at ho
    have hop : (m.code.instr i).op ≠ .alloca := by rw [ho]; exact Opcode.noConfusion
    rcases hfits.store_inv ho hv with ⟨t,hpl⟩ | ⟨j,rfl,hgep⟩
    · exact hcell hop hpl
    · exact absurd hgep (hj j rfl)

end Poised
end Safety
end
end CMinusF
