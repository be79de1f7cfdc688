import CMinusF.Proofs.Lowering.Verified
import CMinusF.Proofs.Machine.Registers
import CMinusF.Proofs.Safety.Memory

/-! An activation of a lowered function: what it has executed, and what its registers hold. -/
namespace CMinusF
open Lowering Numeric List

namespace Safety

def HasGlobals (m : Module) (globals : Table (Option Nat)) (h : Heap) (slots : Nat → Prop) : Prop :=
  ∀ g < m.globalTable.size, Variable h slots False ⟨globals.get g,0⟩

/-- What can be passed for a parameter of a type. -/
structure Argument (h : Heap) (slots : Nat → Prop) (t : Ty) (v : Datum) : Prop where
  word : IsWord v.int
  first : ∀ t', t = .pointer t' → First h slots v.address

/-- A module that has been lowered to its end, with numbers that fit in 32 bits. -/
structure Whole (L : Law) (m : Module) (ns : Notes) : Prop extends Laid L m ns where
  closed : ∀ b, ¬ Open m b
  word : ∀ k, L.literal k → IsWord k

/-- The slot `j` has been reserved, and it holds an address if it is to hold one. -/
def Stored (m : Module) (h : Heap) (a : Activation) (l : List InstrId) (j : InstrId) : Prop :=
  j ∈ l ∧ (m.code.instr j).op = .alloca ∧ ∀ t, (m.code.instr j).object = some (.pointer t) →
    Filled h (a.registers.get j).address

/-- An activation `a` that has executed the instructions `l`, and in its block those of `pre`. -/
structure Frame (m : Module) (ns : Notes) (globals : Table (Option Nat)) (h : Heap)
    (slots : Nat → Prop) (a : Activation) (pre l : List InstrId) : Prop where
  listed : m.Listed a.block
  func : a.block.func = a.func
  split : (m.block a.block).instrs = pre ++ a.rest
  rest : a.rest ≠ []
  before : ∀ i ∈ pre, i ∈ l
  entry : a.block.number = 0 → ∀ i ∈ l, i ∈ pre
  above : ∀ c, Above ns c a.block → c ≠ a.block → ∀ i ∈ (m.block c).instrs, i ∈ l
  word : ∀ i, IsWord (a.registers.get i).int
  bit : ∀ i, (m.code.instr i).type = .i1 → (a.registers.get i).int = 0 ∨ (a.registers.get i).int = 1
  slot : ∀ i ∈ l, ∀ t, (m.code.instr i).op = .alloca → (m.code.instr i).object = some t →
    Variable h slots (∃ t', t = .pointer t') (a.registers.get i).address
  element : ∀ i ∈ l, ∀ t, (m.code.instr i).op ≠ .alloca → (m.code.instr i).type = .pointer t →
    Element h slots (a.registers.get i).address ∧
      (IsBase m i → (a.registers.get i).address.index = 0)
  filled : ∀ i ∈ l, ∀ f k j, (m.code.instr i).op = .store →
    (m.code.instr i).operands = [.arg f k,.instr j] → Stored m h a l j
  argWord : ∀ k, IsWord (a.args.getD k .zero).int
  args : ∀ k t, (m.func a.func).params[k]? = some t → Argument h slots t (a.args.getD k .zero)
  test : ∀ i ∈ pre, ∀ r x y, (m.code.instr i).op = .icmp r → (m.code.instr i).operands = [x,y] →
    a.registers.get i =
      .ofBool (Operation.compare r (a.eval m globals x).int (a.eval m globals y).int)
  checked : ∀ v, (ns a.block).role = .checked v → Elsewhere m a.block v →
    0 ≤ (a.eval m globals v).int
  report : (ns a.block).role = .report →
    ∀ i ∈ pre, ¬ IsReport m (m.code.instr i).op (m.code.instr i).operands

structure Result (m : Module) (h : Heap) (slots : Nat → Prop) (i : InstrId) (x : Datum) : Prop where
  word : IsWord x.int
  bit : (m.code.instr i).type = .i1 → x.int = 0 ∨ x.int = 1
  slot : ∀ t, (m.code.instr i).op = .alloca → (m.code.instr i).object = some t →
    Variable h slots (∃ t', t = .pointer t') x.address
  element : ∀ t, (m.code.instr i).op ≠ .alloca → (m.code.instr i).type = .pointer t →
    Element h slots x.address ∧ (IsBase m i → x.address.index = 0)

section
variable {L : Law} {m : Module} {ns : Notes} {globals : Table (Option Nat)} {h h' : Heap}
  {slots slots' : Nat → Prop} {a : Activation} {pre l : List InstrId} {i j : InstrId}
    {r : List InstrId} {v p : Operand} {t : Ty}

theorem HasGlobals.later (hg : HasGlobals m globals h slots) (hl : Later h slots h' slots') :
    HasGlobals m globals h' slots' :=
  fun g hgl => (hg g hgl).later hl

theorem Argument.later {x : Datum} (hx : Argument h slots t x) (hl : Later h slots h' slots') :
    Argument h' slots' t x :=
  ⟨hx.word,fun t' ht => (hx.first t' ht).later hl⟩

namespace Frame

theorem eval_zero (hz : IsZero m v) : a.eval m globals v = .ofInt 0 := by
  obtain ⟨c,rfl,-,hk⟩ := hz
  have hk : (m.literal c).value = .int 0 := hk
  rw [Activation.eval,hk]

theorem phis_eq_nil (hm : Laid L m ns) (b : BlockId) : m.phis b = [] := by
  rw [Module.phis]
  cases hi : (m.block b).instrs with
  | nil => rfl
  | cons i is =>
    obtain ⟨hlt,hp⟩ := hm.member b i (by rw [hi]; exact mem_cons_self)
    have hop : (m.instr i).op ≠ .phi := (hm.fits i hlt b hp).op_ne_phi
    rw [takeWhile_cons_of_neg (by simpa using hop)]

theorem enter_eq (hm : Laid L m ns) (a : Activation) (q : Option BlockId) (b : BlockId) :
    a.enter m globals q b = { a with block := b, rest := (m.block b).instrs } := by
  simp only [Activation.enter,phis_eq_nil hm b]
  rfl

section
variable (hf : Frame m ns globals h slots a pre l)
include hf

theorem later (hl : Later h slots h' slots') : Frame m ns globals h' slots' a pre l where
  listed := hf.listed
  func := hf.func
  split := hf.split
  rest := hf.rest
  before := hf.before
  entry := hf.entry
  above := hf.above
  word := hf.word
  bit := hf.bit
  slot i hi t ho ht := (hf.slot i hi t ho ht).later hl
  element i hi t ho ht := ⟨(hf.element i hi t ho ht).1.later hl,(hf.element i hi t ho ht).2⟩
  filled i hi f k j ho hv := by
    obtain ⟨hj,hop,hfill⟩ := hf.filled i hi f k j ho hv
    exact ⟨hj,hop,fun t ht => (hf.slot j hj _ hop ht).filled_later ⟨t,rfl⟩ (hfill t ht) hl⟩
  argWord := hf.argWord
  args k t hk := (hf.args k t hk).later hl
  test := hf.test
  checked := hf.checked
  report := hf.report

theorem mem (hr : a.rest = i :: r) : i ∈ (m.block a.block).instrs := by
  rw [hf.split,hr]
  exact mem_append_right _ mem_cons_self

variable (hm : Whole L m ns)
include hm

theorem executed (hr : a.rest = i :: r)
    (hop : (m.instr i).op ≠ .alloca) {c : BlockId} (hj : j < i)
    (hp : (m.code.instr j).parent = some c) (hc : Above ns c a.block) : j ∈ l := by
  have hi := (hm.member _ i (hf.mem hr)).1
  have hmem := (hm.listed_of_parent (Nat.lt_trans hj hi) hp).2
  by_cases hcb : c = a.block
  · subst hcb
    exact hf.before j (hm.mem_before (by rw [hf.split,hr]) hop hmem hj)
  · exact hf.above c hc hcb j hmem

theorem eval_word {n : InstrId} (hv : Has L m ns a.block n v t) :
    IsWord (a.eval m globals v).int := by
  cases hv with
  | @int c k hc hk hl =>
    have hk : (m.literal c).value = .int k := hk
    rw [Activation.eval,hk]
    exact hm.word k hl
  | @float c x hc hk =>
    have hk : (m.literal c).value = .float x := hk
    rw [Activation.eval,hk]
    exact isWord_zero
  | instr => exact hf.word _

theorem place (hg : HasGlobals m globals h slots) (hr : a.rest = i :: r)
    (hop : (m.instr i).op ≠ .alloca) (hp : Place m i a.block.func p t) :
    Variable h slots (∃ t', t = .pointer t') (a.eval m globals p).address := by
  cases hp with
  | @global g t hgl ht =>
    obtain ⟨o,ho,hlt,hs⟩ := hg g hgl
    refine ⟨o,ho,hlt,hs.trans ⟨False.elim,?_⟩⟩
    rintro ⟨t',rfl⟩
    rcases hm.contents g hgl with ⟨s,hc⟩ | ⟨k,s,hc⟩
    · cases s <;> cases ht.symm.trans hc
    · cases ht.symm.trans hc
  | slot hj hpar ho ht hx =>
    exact hf.slot _ (hf.executed hm hr hop hj hpar (hm.above_entry hf.listed)) _ ho hx

theorem pointer (hr : a.rest = i :: r) (hop : (m.instr i).op ≠ .alloca)
    (hv : Has L m ns a.block i (.instr j) (.pointer t)) (hj : (m.code.instr j).op ≠ .alloca) :
    Element h slots (a.registers.get j).address ∧
    (IsBase m j → (a.registers.get j).address.index = 0) := by
  cases hv with
  | instr hlt hp ha ht => exact hf.element j (hf.executed hm hr hop hlt hp ha) _ hj ht

theorem alloca_first (hr : a.rest = i :: r)
    (hi : (m.code.instr i).op = .alloca) : ∀ k ∈ l, (m.code.instr k).op = .alloca := by
  intro k hk
  by_contra hop
  obtain ⟨hlt,hp⟩ := hm.member _ i (hf.mem hr)
  have hb := ((hm.fits i hlt _ hp).alloca_inv hi).1
  obtain ⟨q,q',hq⟩ := append_of_mem (hf.entry hb k hk)
  have hs := hf.split
  rw [hr,hq,append_assoc] at hs
  obtain ⟨w,-,hw⟩ := Laid.work_split hs hop
  refine hm.work_op a.block i ?_ hi
  simp_all

theorem rest_of_terminator (hr : a.rest = i :: r) :
    (m.instr i).op.isTerminator = true ↔ r = [] := by
  obtain ⟨is,t,hi,ht,hall⟩ := hm.ends hf.listed (hm.closed _)
  have hs := hf.split
  rw [hr,hi] at hs
  cases eq_nil_or_concat r with
  | inl hnil => simp_all
  | inr hcons =>
    obtain ⟨r',t',rfl⟩ := hcons
    have hs' : is ++ [t] = (pre ++ i :: r') ++ [t'] := by simpa using hs
    obtain ⟨his,-⟩ := append_inj' hs' rfl
    have := hall i (his ▸ mem_append_right _ mem_cons_self)
    simp [this]

theorem advance (hr : a.rest = i :: r)
    (hterm : (m.instr i).op.isTerminator = false) {x : Datum} (hx : Result m h slots i x)
    (hfill : ∀ f k j, (m.code.instr i).op = .store →
      (m.code.instr i).operands = [.arg f k,.instr j] → Stored m h a l j)
    (htest : ∀ r y z, (m.code.instr i).op = .icmp r → (m.code.instr i).operands = [y,z] →
      x = .ofBool (Operation.compare r (a.eval m globals y).int (a.eval m globals z).int))
    (hrep : (ns a.block).role = .report →
      ¬ IsReport m (m.code.instr i).op (m.code.instr i).operands) :
    Frame m ns globals h slots (a.advance m x) (pre ++ [i]) (i :: l) := by
  obtain ⟨hlt,hp⟩ := hm.member _ i (hf.mem hr)
  have hfits := hm.fits i hlt _ hp
  have hblock := Activation.block_advance m a x
  have hfunc := Activation.func_advance m a x
  have hargs := Activation.args_advance m a x
  have hrest := Activation.rest_advance (m := m) hr x
  have hget := Activation.get_advance (m := m) hr x
  have hold : ∀ k, k ≠ i → (a.advance m x).registers.get k = a.registers.get k := fun k hk => by
    rw [hget,if_neg fun h => hk h.2.symm]
  have hnew : (m.code.instr i).type.isVoid = false → (a.advance m x).registers.get i = x :=
      fun hv => by
    have hv : (m.instr i).type.isVoid = false := hv
    rw [hget,if_pos ⟨hv,rfl⟩]
  have heval : ∀ v, v ≠ .instr i → (a.advance m x).eval m globals v =
    a.eval m globals v := fun v hv =>
    Activation.eval_congr hfunc hargs fun j hj => hold j fun hji => hv (hji ▸ hj)
  have hcases : ∀ k, (a.advance m x).registers.get k = a.registers.get k ∨
      (k = i ∧ (a.advance m x).registers.get k = x) := by
    grind
  have hpre : ∀ k ∈ pre, (m.code.instr k).op ≠ .alloca → k < i := fun k hk hop =>
    hm.lt_of_mem_before (by rw [hf.split,hr]) hk hop
  constructor
  case listed => rw [hblock]; exact hf.listed
  case func => rw [hblock,hfunc]; exact hf.func
  case split => rw [hblock,hrest,hf.split,hr,append_assoc]; rfl
  case rest =>
    rw [hrest]
    intro hnil
    rw [(hf.rest_of_terminator hm hr).mpr hnil] at hterm
    cases hterm
  case before =>
    intro k hk
    rcases mem_append.mp hk with hk | hk
    · exact mem_cons_of_mem _ (hf.before k hk)
    · exact mem_singleton.mp hk ▸ mem_cons_self
  case entry =>
    rw [hblock]
    intro h0 k hk
    rcases mem_cons.mp hk with rfl | hk
    · exact mem_append_right _ mem_cons_self
    · exact mem_append_left _ (hf.entry h0 k hk)
  case above =>
    rw [hblock]
    exact fun c hc hne k hk => mem_cons_of_mem _ (hf.above c hc hne k hk)
  case word =>
    intro k
    rcases hcases k with hk | ⟨-,hk⟩ <;> rw [hk]
    · exact hf.word k
    · exact hx.word
  case bit =>
    intro k ht
    rcases hcases k with hk | ⟨rfl,hk⟩ <;> rw [hk]
    · exact hf.bit k ht
    · exact hx.bit ht
  case slot =>
    intro k hk t ho ht
    by_cases hki : k = i
    · subst hki
      obtain ⟨-,t',hty⟩ := hfits.alloca_inv ho
      rw [hnew (by rw [hty]; rfl)]
      exact hx.slot t ho ht
    · rw [hold k hki]
      exact hf.slot k ((mem_cons.mp hk).resolve_left hki) t ho ht
  case element =>
    intro k hk t ho ht
    by_cases hki : k = i
    · subst hki
      rw [hnew (by rw [ht]; rfl)]
      exact hx.element t ho ht
    · rw [hold k hki]
      exact hf.element k ((mem_cons.mp hk).resolve_left hki) t ho ht
  case filled =>
    intro k hk f n j ho hv
    have hkl : Stored m h a l j := by
      rcases mem_cons.mp hk with rfl | hk
      · exact hfill f n j ho hv
      · exact hf.filled k hk f n j ho hv
    refine ⟨mem_cons_of_mem _ hkl.1,hkl.2.1,fun t ht => ?_⟩
    rw [hold j ?_]
    · exact hkl.2.2 t ht
    · -- the slot is not being reserved now
      rintro rfl
      rcases mem_cons.mp hk with rfl | hk
      · cases ho.symm.trans hkl.2.1
      · cases ho.symm.trans (hf.alloca_first hm hr hkl.2.1 k hk)
  case argWord => rw [hargs]; exact hf.argWord
  case args => rw [hfunc,hargs]; exact hf.args
  case test =>
    intro k hk rel y z ho hv
    have hread : ∀ n < m.instrTable.size, (m.code.instr n).op = .icmp rel →
      (m.code.instr n).operands = [y,z] →
        ∀ c, (m.code.instr n).parent = some c → n ≤ i →
          (a.advance m x).eval m globals y = a.eval m globals y ∧
          (a.advance m x).eval m globals z = a.eval m globals z := by
      intro n hn ho hv c hc hle
      obtain ⟨-,y',z',hyz,hy,hz⟩ := (hm.fits n hn c hc).icmp_inv ho
      cases hv.symm.trans hyz
      have hlt : ∀ v t, Has L m ns c n v t → v ≠ .instr i := by
        rintro v t hv rfl
        cases hv with
        | instr hj => exact absurd (hj.trans_le hle) (Nat.lt_irrefl _)
      exact ⟨heval y (hlt _ _ hy),heval z (hlt _ _ hz)⟩
    rcases mem_append.mp hk with hk | hk
    · have hop : (m.code.instr k).op ≠ .alloca := by rw [ho]; exact Opcode.noConfusion
      have hki := hpre k hk hop
      obtain ⟨hkl,hkp⟩ := hm.member a.block k (by rw [hf.split]; exact mem_append_left _ hk)
      obtain ⟨hy,hz⟩ := hread k hkl ho hv _ hkp (Nat.le_of_lt hki)
      rw [hold k (Nat.ne_of_lt hki),hy,hz]
      exact hf.test k hk rel y z ho hv
    · cases mem_singleton.mp hk
      obtain ⟨hy,hz⟩ := hread i hlt ho hv _ hp (Nat.le_refl _)
      rw [hy,hz,hnew (by rw [(hfits.icmp_inv ho).1]; rfl)]
      exact htest rel y z ho hv
  case checked =>
    rw [hblock]
    intro v hv he
    rw [heval v]
    · exact hf.checked v hv he
    · rintro rfl
      exact he i rfl hp
  case report =>
    rw [hblock]
    intro hrole k hk
    rcases mem_append.mp hk with hk | hk
    · exact hf.report hrole k hk
    · exact mem_singleton.mp hk ▸ hrep hrole

theorem enter (hr : a.rest = i :: r)
    (hop : (m.code.instr i).op = .br) {b : BlockId} (he : Edge m ns a.block b)
    (hc : ∀ v, (ns b).role = .checked v → 0 ≤ (a.eval m globals v).int) :
    Frame m ns globals h slots (a.enter m globals (some a.block) b) [] (i :: l) := by
  obtain ⟨hlt,hp⟩ := hm.member _ i (hf.mem hr)
  obtain ⟨hfunc,hl,u,hu,ha⟩ := he
  have hr' : r = [] := (hf.rest_of_terminator hm hr).mp (by rw [m.op_eq_code,hop]; rfl)
  have hall : ∀ k ∈ (m.block a.block).instrs, k ∈ i :: l := by
    intro k hk
    rw [hf.split,hr,hr'] at hk
    rcases mem_append.mp hk with hk | hk
    · exact mem_cons_of_mem _ (hf.before k hk)
    · exact mem_singleton.mp hk ▸ mem_cons_self
  have hty : (m.code.instr i).type = .void := (hm.fits i hlt _ hp).br_inv hop
  rw [enter_eq hm.toLaid]
  constructor
  case listed => exact hl
  case func => exact hfunc.trans hf.func
  case split => rfl
  case rest =>
    obtain ⟨is,t,hi,-⟩ := hm.ends hl (hm.closed b)
    simp [hi]
  case before => exact fun k hk => absurd hk not_mem_nil
  case entry =>
    intro h0
    rw [(hm.tree.root b hl).mpr h0] at hu
    cases hu
  case above =>
    intro c hcb hne k hk
    cases hcb with
    | refl => exact absurd rfl hne
    | step hu' hcu =>
      cases hu.symm.trans hu'
      by_cases hca : c = a.block
      · exact hall k (hca ▸ hk)
      · exact mem_cons_of_mem _ (hf.above c (hcu.trans ha) hca k hk)
  case word => exact hf.word
  case bit => exact hf.bit
  case slot =>
    intro k hk t ho ht
    refine hf.slot k ((mem_cons.mp hk).resolve_left ?_) t ho ht
    rintro rfl
    cases hop.symm.trans ho
  case element =>
    intro k hk t ho ht
    refine hf.element k ((mem_cons.mp hk).resolve_left ?_) t ho ht
    rintro rfl
    cases hty.symm.trans ht
  case filled =>
    intro k hk f n j ho hv
    have hne : k ≠ i := by
      rintro rfl
      cases hop.symm.trans ho
    obtain ⟨hj,hx⟩ := hf.filled k ((mem_cons.mp hk).resolve_left hne) f n j ho hv
    exact ⟨mem_cons_of_mem _ hj,hx⟩
  case argWord => exact hf.argWord
  case args => exact hf.args
  case test => exact fun k hk => absurd hk not_mem_nil
  case checked => exact fun v hv _ => hc v hv
  case report => exact fun _ k hk => absurd hk not_mem_nil

end

theorem start (hm : Whole L m ns) {f : FuncId} (hl : m.Listed ⟨f,0⟩) {args : List Datum}
    (hw : ∀ k, IsWord (args.getD k .zero).int)
    (hargs : ∀ k t, (m.func f).params[k]? = some t → Argument h slots t (args.getD k .zero)) :
    Frame m ns globals h slots (Run.activation m globals f args) [] [] := by
  have hentry : (m.func f).entryBlock?.getD default = ⟨f,0⟩ := by
    rw [Func.entryBlock?,hm.head_layout hl]
    rfl
  have hzero : ∀ k, (Table.empty : Table Datum).get k = .zero := fun k => Table.get_empty k
  rw [Run.activation,hentry,enter_eq hm.toLaid]
  constructor
  case listed => exact hl
  case func => rfl
  case split => rfl
  case rest =>
    obtain ⟨is,t,hi,-⟩ := hm.ends hl (hm.closed _)
    simp [hi]
  case above =>
    intro c hc hne
    cases hc with
    | refl => exact absurd rfl hne
    | step hu =>
      rw [(hm.tree.root _ hl).mpr rfl] at hu
      cases hu
  case word => exact fun k => by rw [hzero]; exact isWord_zero
  case bit => exact fun k _ => by rw [hzero]; exact .inl rfl
  case argWord => exact hw
  case args => exact hargs
  case checked =>
    intro v hv
    rw [hm.tree.plain _ hl rfl] at hv
    cases hv
  all_goals simp

end Frame
end
end Safety
end CMinusF
