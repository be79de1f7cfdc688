import CMinusF.Proofs.Graph.Mirror
import CMinusF.Proofs.Machine.Calls
import CMinusF.Proofs.Machine.Position

/-! Calls of functions that touch only memory of their own and call only such functions: they cannot
fault, and leave the world as it was but for new objects. -/
namespace CMinusF
open Run Numeric
variable {n k : Nat} {w w' : World} {h : Heap} {m : Module} {p : Operand} {i : InstrId}
  {P : FuncId → Prop} {f : FuncId} {e : BlockId} {x : Except Fault Datum}

/-- A world after another in which the first `n` objects have not been touched, nothing was read and
nothing printed. -/
structure World.Keeps (n : Nat) (w w' : World) : Prop where
  globals : w'.globals = w.globals
  input : w'.input = w.input
  output : w'.output = w.output
  size : w.heap.size ≤ w'.heap.size
  object : ∀ o < n, w'.heap.get o = w.heap.get o
  length : ∀ o < w.heap.size, (w'.heap.get o).length = (w.heap.get o).length

namespace World.Keeps
variable {w'' : World}

theorem refl (n : Nat) (w : World) : Keeps n w w :=
  ⟨rfl,rfl,rfl,Nat.le_refl _,fun _ _ => rfl,fun _ _ => rfl⟩

theorem trans (h : Keeps n w w') (h' : Keeps n w' w'') : Keeps n w w'' where
  globals := h'.globals.trans h.globals
  input := h'.input.trans h.input
  output := h'.output.trans h.output
  size := Nat.le_trans h.size h'.size
  object o ho := (h'.object o ho).trans (h.object o ho)
  length o ho := (h'.length o (ho.trans_le h.size)).trans (h.length o ho)

theorem mono (h : Keeps k w w') (hn : n ≤ k) : Keeps n w w' :=
  ⟨h.globals,h.input,h.output,h.size,fun o ho => h.object o (ho.trans_le hn),h.length⟩

theorem countCall (w : World) (name : String) (n : Nat) : Keeps n w (Run.countCall w name) :=
  ⟨rfl,rfl,rfl,Nat.le_refl _,fun _ _ => rfl,fun _ _ => rfl⟩

end World.Keeps

/-- Functions with names outside of `N` have been called as often. -/
def World.SameCalls (N : String → Prop) (w w' : World) : Prop :=
  ∀ s, ¬N s → w'.calls.getD s 0 = w.calls.getD s 0

namespace World.SameCalls
variable {N : String → Prop} {w'' : World}

theorem of_eq (h : w'.calls = w.calls) : SameCalls N w w' := fun _ _ => by rw [h]

theorem trans (h : SameCalls N w w') (h' : SameCalls N w' w'') : SameCalls N w w'' :=
  fun s hs => (h' s hs).trans (h s hs)

theorem countCall (w : World) {name : String} (h : N name) :
    SameCalls N w (Run.countCall w name) := by
  intro s hs
  have hne : name ≠ s := by
    rintro rfl
    exact hs h
  rw [Run.countCall,Std.TreeMap.getD_insert,if_neg fun he => hne (Std.compare_eq_iff_eq.mp he)]

end World.SameCalls

def Module.Names (m : Module) (P : FuncId → Prop) (s : String) : Prop :=
  ∃ g, P g ∧ (m.func g).name = s

/-- The address of the first cell of an object that was made since there were `n` of them. -/
def Heap.Owns (n : Nat) (h : Heap) (a : Address) : Prop :=
  a.index = 0 ∧ ∃ o, a.object = some o ∧ n ≤ o ∧ o < h.size ∧ 0 < (h.get o).length

namespace Heap.Owns
variable {a : Address}

theorem keep (ha : Owns n w.heap a) (hw : w.Keeps k w') : Owns n w'.heap a := by
  obtain ⟨hi,o,ho,hn,hlt,hl⟩ := ha
  exact ⟨hi,o,ho,hn,hlt.trans_le hw.size,by rw [hw.length o hlt]; exact hl⟩

theorem cell (ha : Owns n h a) : ∃ o, n ≤ o ∧ o < h.size ∧ h.cell? a = some (o,0) := by
  obtain ⟨hi,o,ho,hn,hlt,hl⟩ := ha
  exact ⟨o,hn,hlt,cell?_eq_some_iff.mpr ⟨ho,by omega,by omega,by omega⟩⟩

end Heap.Owns

/-- An instruction has executed: it computed `v`, and changed at most objects made since there were
`n` of them. -/
structure Executed (x : Instr) (ops : List Datum) (n : Nat) (w : World) (heap : Heap)
    (v : Datum) : Prop where
  result : Operation.execute x ops w.heap = (heap,.ok v)
  keeps : w.Keeps n { w with heap := heap }
  alloca : x.op = .alloca → heap.Owns n v.address
  gep : x.op = .gep → v.address = ⟨(ops.getD 0 .zero).address.object,
    (ops.getD 0 .zero).address.index + wrap32 (ops.getD (ops.length - 1) .zero).int⟩

section
variable {x : Instr} {ops : List Datum}

theorem executed_alloca (hx : x.op = .alloca)
    (hl : (x.object.getD .void).length ≤ Object.limit) (hn : n ≤ w.heap.size) :
    ∃ heap v, Executed x ops n w heap v := by
  refine ⟨_,_,Operation.execute_alloca_of_le hx hl ops w.heap,?_,fun _ => ?_,
    fun h => Opcode.noConfusion (hx.symm.trans h)⟩
  · exact ⟨rfl,rfl,rfl,Heap.size_le_extend ..,
      fun o ho => Heap.get_extend_of_lt _ (ho.trans_le hn) _,
      fun o ho => congrArg _ (Heap.get_extend_of_lt _ ho _)⟩
  · refine ⟨rfl,w.heap.size,rfl,hn,?_,?_⟩
    · simp [Heap.extend]
    · rw [Heap.extend,Table.get_push,if_pos rfl]
      exact Int.lt_of_lt_of_le (by decide) (Int.le_max_right _ 1)

theorem executed_store (hx : x.op = .store) (hp : w.heap.Owns n (ops.getD 1 .zero).address) :
    ∃ heap v, Executed x ops n w heap v := by
  obtain ⟨o,hno,ho,hc⟩ := hp.cell
  refine ⟨w.heap.write o 0 (ops.getD 0 .zero),.zero,by rw [Operation.execute,hx]; simp only [hc],
    ⟨rfl,rfl,rfl,?_,fun p hp => ?_,fun p _ => ?_⟩,fun h => Opcode.noConfusion (hx.symm.trans h),
    fun h => Opcode.noConfusion (hx.symm.trans h)⟩
  · exact Nat.le_of_eq (Heap.size_write _ ho _ _).symm
  · exact Heap.get_write_of_ne _ (by omega) _ _
  · exact Heap.length_write _ _ _ _ _

/-- An instruction executes if it has what it needs: a divisor, and an object to read from or write
to. -/
theorem exists_executed (hn : n ≤ w.heap.size) (hterm : x.op.isTerminator = false)
    (hcall : x.op ≠ .call) (hphi : x.op ≠ .phi) (hknown : ∀ k, x.op ≠ .unknown k)
    (hdiv : x.op = .int .div → wrap32 (ops.getD 1 .zero).int ≠ 0)
    (hload : x.op = .load → w.heap.Owns n (ops.getD 0 .zero).address)
    (hstore : x.op = .store → w.heap.Owns n (ops.getD 1 .zero).address)
    (halloca : x.op = .alloca → (x.object.getD .void).length ≤ Object.limit) :
    ∃ heap v, Executed x ops n w heap v := by
  have same : ∀ {v}, Operation.execute x ops w.heap = (w.heap,.ok v) → x.op ≠ .alloca →
    x.op ≠ .gep → ∃ heap v, Executed x ops n w heap v :=
    fun hv ha hg => ⟨w.heap,_,hv,.refl n w,fun h => absurd h ha,fun h => absurd h hg⟩
  cases hx : x.op with
  | ret => rw [hx] at hterm; cases hterm
  | br => rw [hx] at hterm; cases hterm
  | call => exact absurd hx hcall
  | phi => exact absurd hx hphi
  | unknown k => exact absurd hx (hknown k)
  | alloca => exact executed_alloca hx (halloca hx) hn
  | store => exact executed_store hx (hstore hx)
  | load =>
    obtain ⟨o,-,-,hc⟩ := (hload hx).cell
    exact same (v := (w.heap.get o).cells.get 0)
      (by rw [Operation.execute,hx]; simp only [Heap.read?,hc,Option.map_some]) (by simp [hx])
      (by simp [hx])
  | gep =>
    exact ⟨w.heap,_,by rw [Operation.execute,hx],.refl n w,
      fun h => Opcode.noConfusion (hx.symm.trans h),fun _ => rfl⟩
  | int o =>
    cases o with
    | div =>
      exact same (by rw [Operation.execute,hx]; simp only [Operation.arith,if_neg (hdiv hx)]; rfl)
        (by simp [hx]) (by simp [hx])
    | _ => exact same (by rw [Operation.execute,hx]; rfl) (by simp [hx]) (by simp [hx])
  | _ => exact same (by rw [Operation.execute,hx]) (by simp [hx]) (by simp [hx])

end

def Module.IsZero (m : Module) (v : Operand) : Prop :=
  ∃ c, v = .literal c ∧ (m.literal c).value = .int 0

/-- An address at which the object `r` starts: the object itself, or its first element. -/
def Module.StartsAt (m : Module) (p r : Operand) : Prop :=
  p = r ∨ ∃ j z z', p = .instr j ∧ (m.instr j).op = .gep ∧ m.operands j = [r,z,z'] ∧ m.IsZero z'

theorem Module.StartsAt.ne_hole {r : Operand} (h : m.StartsAt p r) (hr : r ≠ .hole) :
    p ≠ .hole := by
  rcases h with rfl | ⟨j,_,_,rfl,-⟩
  · exact hr
  · exact Operand.noConfusion

/-- The start of an object that the function allocates. -/
def Module.IsSlot (m : Module) (p : Operand) : Prop :=
  ∃ s, (m.instr s).op = .alloca ∧ m.StartsAt p (.instr s)

theorem Module.IsSlot.exists_instr (h : m.IsSlot p) : ∃ j, p = .instr j := by
  obtain ⟨s,-,rfl | ⟨j,_,_,rfl,-⟩⟩ := h
  · exact ⟨s,rfl⟩
  · exact ⟨j,rfl⟩

theorem Module.IsSlot.gep (h : m.IsSlot (.instr i)) (hop : (m.instr i).op = .gep) :
    m.IsSlot (m.operand i 0) ∧
    ∀ (a : Activation) globals, (((m.instr i).operands.map (a.eval m globals)).getD
      (((m.instr i).operands.map (a.eval m globals)).length - 1) .zero).int = 0 := by
  obtain ⟨s,hs,he | ⟨j,z,z',he,-,hops,c,rfl,hz⟩⟩ := h
  · cases he
    rw [hs] at hop
    cases hop
  · cases he
    refine ⟨⟨s,hs,.inl (by rw [Module.operand,hops]; rfl)⟩,fun a globals => ?_⟩
    rw [Activation.getD_map_eval,show (m.instr i).operands = _ from hops,Module.operand,hops]
    show (a.eval m globals (.literal c)).int = 0
    rw [Activation.eval,hz]
    rfl

/-- A function that touches only memory of its own, cannot fault, and calls only functions in `P`.
-/
structure Contained (m : Module) (P : FuncId → Prop) (f : FuncId) (e : BlockId) :
    Prop extends Runnable m f e where
  known : ∀ i ∈ m.instrs f, ∀ k, (m.instr i).op ≠ .unknown k
  divisor : ∀ i ∈ m.instrs f, (m.instr i).op = .int .div →
    ∃ c k, m.operand i 1 = .literal c ∧ (m.literal c).value = .int k ∧ wrap32 k ≠ 0
  access : ∀ i ∈ m.instrs f, ∀ p, m.address? i = some p → m.IsSlot p
  callee : ∀ i ∈ m.instrs f, ∀ g, m.callee? i = some g → P g
  affords : m.Affords f

def ContainedAll (m : Module) (P : FuncId → Prop) : Prop := ∀ f, P f → ∃ e, Contained m P f e

theorem Contained.isDeclaration (h : Contained m P f e) :
    (m.func f).isDeclaration = false := by
  rw [Func.isDeclaration,List.isEmpty_eq_false_iff]
  exact List.ne_nil_of_mem h.entry_mem

/-- The addresses of slots that have been computed are those of objects made since the function was
called. -/
def Held (m : Module) (e : BlockId) (n : Nat) (h : Heap) : Activation → List InstrId → Prop :=
  Known m e fun j v => m.IsSlot (.instr j) → h.Owns n v.address

/-- What an instruction of a contained function may do. -/
def Behaves (m : Module) (P : FuncId → Prop) (f : FuncId) (e : BlockId) (n : Nat) (w : World)
    (i : InstrId) : Action → Prop
  | .go w' a =>
    w.Keeps n w' ∧ w'.calls = w.calls ∧ ∃ done, Stands m f e a done ∧ Held m e n w'.heap a done
  | .call w' c =>
    (m.instr i).op = .call ∧ ∃ g args, P g ∧ w' = countCall w (m.func g).name ∧
      c = activation m w.globals g args
  | .done _ => True
  | .fault _ _ => False

section
variable {a : Activation} {done r : List InstrId} {j : InstrId}

theorem not_isSlot (ha : (m.instr j).op ≠ .alloca) (hg : (m.instr j).op ≠ .gep) :
    ¬m.IsSlot (.instr j) := by
  rintro ⟨s,hs,he | ⟨k,z,z',he,hgep,-⟩⟩
  · cases he
    exact ha hs
  · cases he
    exact hg hgep

theorem held_start (hF : Formed m f e) (globals : Table (Option Nat)) (args : List Datum) :
    Held m e n h (activation m globals f args) (m.phis e) :=
  .start hF globals args fun _ hp _ hslot =>
    absurd hslot (not_isSlot (by simp [Module.op_of_mem_phis hp])
      (by simp [Module.op_of_mem_phis hp]))

theorem Held.address (h : Held m e n w.heap a done) (hF : Formed m f e) (hs : Stands m f e a done)
    (hr : a.rest = i :: r) (hp : p ∈ m.operands i) (hslot : m.IsSlot p) :
    w.heap.Owns n (a.eval m w.globals p).address := by
  obtain ⟨j,rfl⟩ := hslot.exists_instr
  exact h j (hs.available hF hr hp) (hF.valued i (hs.mem_instrs hF hr) j hp) hslot

theorem Contained.executes (hc : Contained m P f e) (hs : Stands m f e a done)
    (h : Held m e n w.heap a done) (hn : n ≤ w.heap.size) (hr : a.rest = i :: r)
    (hterm : (m.instr i).op.isTerminator = false) (hcall : (m.instr i).op ≠ .call) :
    ∃ heap v, Operation.execute (m.instr i) ((m.instr i).operands.map (a.eval m w.globals)) w.heap =
      (heap,.ok v) ∧
      w.Keeps n { w with heap := heap } ∧ (m.IsSlot (.instr i) → heap.Owns n v.address) := by
  have hF := hc.toFormed
  have hi := hs.mem_instrs hF hr
  have eval := a.getD_map_eval m w.globals i
  have owned : ∀ k p, m.operand i k = p → m.IsSlot p →
      w.heap.Owns n (a.eval m w.globals p).address := by
    intro k p hp hslot
    refine h.address hF hs hr (Module.mem_operands_of_operand hp ?_) hslot
    obtain ⟨s,-,hst⟩ := hslot
    exact hst.ne_hole Operand.noConfusion
  obtain ⟨heap,v,hx,hk,halloca,hgep⟩ :
      ∃ heap v, Executed (m.instr i) ((m.instr i).operands.map (a.eval m w.globals)) n w
      heap v := by
    refine exists_executed hn hterm hcall (hs.not_phi hF hr) (hc.known i hi) (fun ho => ?_)
      (fun ho => ?_)
      (fun ho => ?_) (hc.affords i hi)
    · obtain ⟨c,k,hd,hk,hne⟩ := hc.divisor i hi ho
      rw [eval,hd,Activation.eval,hk]
      exact hne
    · rw [eval]
      exact owned 0 _ rfl (hc.access i hi _ (by rw [Module.address?,ho]))
    · rw [eval]
      exact owned 1 _ rfl (hc.access i hi _ (by rw [Module.address?,ho]))
  · refine ⟨heap,v,hx,hk,?_⟩
    intro hslot
    by_cases ha : (m.instr i).op = .alloca
    · exact halloca ha
    · have hop : (m.instr i).op = .gep := by
        by_contra hg
        exact not_isSlot ha hg hslot
      obtain ⟨h0,hzero⟩ := hslot.gep hop
      obtain ⟨hidx,hobj⟩ := Heap.Owns.keep (owned 0 _ rfl h0) hk
      rw [hgep hop,eval,hzero]
      refine ⟨?_,hobj⟩
      show _ + wrap32 0 = 0
      rw [hidx]
      rfl

theorem Contained.behaves (hP : ContainedAll m P) (hc : Contained m P f e)
    (hs : Stands m f e a done) (h : Held m e n w.heap a done) (hn : n ≤ w.heap.size)
    (hr : a.rest = i :: r) : Behaves m P f e n w i (action m w a i) := by
  have hF := hc.toFormed
  rcases hs.action_cases hc.toRunnable hr w
    with ⟨-,hact⟩ | ⟨ho,c,hsucc,-,hact⟩ | ⟨ho,g,vs,-,hcallee,-,-⟩ | ⟨hterm,hcall,hact⟩
  · rw [hact]
    trivial
  · rw [hact]
    refine ⟨.refl n w,rfl,_,hs.enter hF w.globals hsucc,
      Known.enter h hF hs hr (by rw [ho]; rfl) w.globals hsucc (fun _ _ _ hx => hx)
      (fun _ hslot => ?_) fun p hp _ hslot => ?_⟩
    · exact absurd hslot (not_isSlot (by simp [ho]) (by simp [ho]))
    · have hop := Module.op_of_mem_phis hp
      exact absurd hslot (not_isSlot (by simp [hop]) (by simp [hop]))
  · have hg := hc.callee i (hs.mem_instrs hF hr) g hcallee
    obtain ⟨e',hc'⟩ := hP g hg
    rw [action_call ho,hcallee]
    simp only [hc'.isDeclaration]
    exact ⟨ho,g,_,hg,rfl,rfl⟩
  · obtain ⟨heap,v,hx,hk,hslot⟩ := hc.executes hs h hn hr hterm hcall
    rw [hact,hx]
    exact ⟨hk,rfl,_,hs.next hF hr hterm v,
      Known.next h hr (fun _ _ _ hx hs => (hx hs).keep hk) fun _ => hslot⟩

theorem Contained.ends (hP : ContainedAll m P) (hx : Ends m w a k w' x) (hc : Contained m P f e)
    (hs : Stands m f e a done) (h : Held m e n w.heap a done) (hn : n ≤ w.heap.size) :
    (∃ v, x = .ok v) ∧ w.Keeps n w' ∧ w.SameCalls (m.Names P) w' := by
  induction hx generalizing f e n done with
  | stuck hr => exact absurd hr hs.rest
  | done => exact ⟨⟨_,rfl⟩,.refl _ _,.of_eq rfl⟩
  | fault hr ha =>
    have hb := hc.behaves hP hs h hn hr
    rw [ha] at hb
    exact hb.elim
  | go hr ha _ ih =>
    have hb := hc.behaves hP hs h hn hr
    rw [ha] at hb
    obtain ⟨hk,hcalls,done',hs',h'⟩ := hb
    obtain ⟨hv,hk',hcalls'⟩ := ih hc hs' h' (hn.trans hk.size)
    exact ⟨hv,hk.trans hk',.trans (.of_eq hcalls) hcalls'⟩
  | @call w a i r w1 c k w2 v l w' x hr ha _ _ ih ih' =>
    have hb := hc.behaves hP hs h hn hr
    rw [ha] at hb
    obtain ⟨hop,g,args,hg,rfl,rfl⟩ := hb
    obtain ⟨e',hc'⟩ := hP g hg
    -- the callee leaves all objects that its caller knows of alone
    obtain ⟨-,hk,hcalls⟩ := ih hc' (.start hc'.toFormed _ _) (held_start hc'.toFormed _ _)
      (Nat.le_refl w.heap.size)
    replace hk := (World.Keeps.countCall w (m.func g).name _).trans hk
    obtain ⟨hv,hk',hcalls'⟩ := ih' hc (hs.next hc.toFormed hr (by rw [hop]; rfl) v)
      (Known.next h hr (fun _ _ _ hx hs => (hx hs).keep hk) fun _ hslot =>
        absurd hslot (not_isSlot (by simp [hop]) (by simp [hop])))
      (hn.trans hk.size)
    exact ⟨hv,(hk.mono hn).trans hk',
      ((World.SameCalls.countCall w ⟨g,hg,rfl⟩).trans hcalls).trans hcalls'⟩
  | @callFault w a i r w1 c k w' x hr ha _ ih =>
    have hb := hc.behaves hP hs h hn hr
    rw [ha] at hb
    obtain ⟨hop,g,args,hg,rfl,rfl⟩ := hb
    obtain ⟨e',hc'⟩ := hP g hg
    obtain ⟨⟨v,hv⟩,-⟩ := ih hc' (.start hc'.toFormed _ _) (held_start hc'.toFormed _ _)
      (Nat.le_refl w.heap.size)
    cases hv

theorem ContainedAll.callEnds (hP : ContainedAll m P) (hf : P f) {args : List Datum}
    (hx : CallEnds m w f args k w' x) :
    (∃ v, x = .ok v) ∧ w.Keeps w.heap.size w' ∧ w.SameCalls (m.Names P) w' := by
  obtain ⟨e,hc⟩ := hP f hf
  cases hx with
  | builtin hd => exact absurd (hd.symm.trans hc.isDeclaration) Bool.noConfusion
  | code _ hx =>
    obtain ⟨hv,hk,hcalls⟩ := hc.ends hP hx (.start hc.toFormed _ _) (held_start hc.toFormed _ _)
      (Nat.le_refl _)
    exact ⟨hv,(World.Keeps.countCall w _ _).trans hk,
      (World.SameCalls.countCall w ⟨f,hf,rfl⟩).trans hcalls⟩

/-- A machine that calls such a function spends any budget, or from some budget on it gets a value
and little else has changed. -/
theorem ContainedAll.callFunc (hP : ContainedAll m P) (hf : P f) (w : World) (args : List Datum) :
    (∀ n, Spent ((⟨n,w⟩ : Machine).callFunc m f args).2) ∨
      ∃ k v w1, w.Keeps w.heap.size w1 ∧ ∀ n, if k ≤ n then (⟨n,w⟩ : Machine).callFunc m f args =
        (⟨n - k,w1⟩,.ok v)
        else Spent ((⟨n,w⟩ : Machine).callFunc m f args).2 := by
  refine or_iff_not_imp_left.mpr fun hne => ?_
  obtain ⟨n,hn⟩ := not_forall.mp hne
  obtain ⟨k,-,w1,x,hx⟩ := callEnds_of_not_spent hn
  obtain ⟨⟨v,rfl⟩,hk,-⟩ := hP.callEnds hf hx
  refine ⟨k,v,w1,hk,fun n => ?_⟩
  split
  · obtain ⟨r,hr,hrep⟩ := hx.callFunc ‹_›
    cases hrep
    exact hr
  · by_contra hs
    obtain ⟨l,hl,_,_,hy⟩ := callEnds_of_not_spent hs
    have := (hx.unique hy).1
    omega

end
end CMinusF
