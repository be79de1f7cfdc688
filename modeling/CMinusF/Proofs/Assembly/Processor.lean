import CMinusF.Assembly.Access
import Mathlib.Logic.Function.Basic
import Mathlib.Tactic.Ring

/-! The code on a processor: what instructions do to registers and memory, and what the pieces of
code that load and store operands do in all. -/
namespace CMinusF.Assembly
open Numeric

theorem ok_of_bind {α β : Type} {x : Except Cause α} {g : α → Except Cause β} {b : β}
    (h : (x >>= g) = .ok b) :
    ∃ a, x = .ok a ∧ g a = .ok b := by
  cases x with
  | ok a => exact ⟨a,rfl,h⟩
  | error e => cases h

/-- Registers of 64 and of 32 bits, memory of bytes, and the addresses of the globals. -/
structure Cpu where
  reg : Reg → BitVec 64
  freg : FReg → BitVec 32
  mem : BitVec 64 → BitVec 8
  symbol : String → BitVec 64

def Width.bytes : Width → Nat
  | .byte => 1
  | .word => 4
  | .double => 8

/-- The low 32 bits of a number, extended by their sign. -/
def word (n : Int) : BitVec 64 := .ofInt 64 (n.bmod 4294967296)

namespace Cpu
variable (s : Cpu)

/-- A register holds zero for good. -/
def get (r : Reg) : BitVec 64 := if r = .zero then 0 else s.reg r

def set (r : Reg) (x : BitVec 64) : Cpu := { s with reg := Function.update s.reg r x }
def setFloat (r : FReg) (x : BitVec 32) : Cpu := { s with freg := Function.update s.freg r x }

/-- The number in `n` bytes, the lowest first. -/
def fetch : Nat → BitVec 64 → Nat
  | 0, _ => 0
  | n + 1, a => (s.mem a).toNat + 256 * fetch n (a + 1)

/-- Writes a number to `n` bytes. -/
def put (n : Nat) (a : BitVec 64) (k : Nat) : Cpu :=
  { s with mem := fun x => if (x - a).toNat < n then .ofNat 8 (k / 256 ^ (x - a).toNat)
    else s.mem x }

/-- One of the instructions that take no branch and calculate with no floats. -/
def exec : Inst → Option Cpu
  | .addiW d r n => some (s.set d (word ((s.get r).toInt + n)))
  | .addiD d r n => some (s.set d (s.get r + .ofInt 64 n))
  | .addD d r t => some (s.set d (s.get r + s.get t))
  | .subD d r t => some (s.set d (s.get r - s.get t))
  | .arithW .add d r t => some (s.set d (word ((s.get r).toInt + (s.get t).toInt)))
  | .arithW .sub d r t => some (s.set d (word ((s.get r).toInt - (s.get t).toInt)))
  | .arithW .mul d r t => some (s.set d (word ((s.get r).toInt * (s.get t).toInt)))
  | .ori d r n => some (s.set d (s.get r ||| .ofInt 64 n))
  | .lu12iW d n => some (s.set d (word (n * 4096)))
  | .lu32iD d n => some (s.set d (.ofInt 64 (n * 4294967296 + (s.get d).toNat % 4294967296)))
  | .lu52iD d r n =>
    some (s.set d (.ofInt 64 (n * 4503599627370496 + (s.get r).toNat % 4503599627370496)))
  | .ld w d r n =>
    some (s.set d (.ofInt 64 (Int.bmod (s.fetch w.bytes (s.get r + .ofInt 64 n)) (256 ^ w.bytes))))
  | .st w t r n => some (s.put w.bytes (s.get r + .ofInt 64 n) (s.get t).toNat)
  | .fld d r n => some (s.setFloat d (.ofNat 32 (s.fetch 4 (s.get r + .ofInt 64 n))))
  | .fst t r n => some (s.put 4 (s.get r + .ofInt 64 n) (s.freg t).toNat)
  | .toFloat d r => some (s.setFloat d (.ofNat 32 (s.get r).toNat))
  | .la d x => some (s.set d (s.symbol x))
  | _ => none

def run (code : List Inst) : Option Cpu := code.foldlM exec s

def address (off : Int) : BitVec 64 := s.reg .fp + .ofInt 64 off

variable {s} {r rd : Reg} {x y a : BitVec 64} {n k i : Nat} {off : Int}

@[simp] theorem set_set : (s.set r x).set r y = s.set r y := by simp [set]
@[simp] theorem set_reg (r : Reg) : s.set r (s.reg r) = s := by simp [set]
@[simp] theorem get_zero : s.get .zero = 0 := rfl
theorem get_of_ne (h : r ≠ .zero) : s.get r = s.reg r := if_neg h
theorem get_set_self (h : r ≠ .zero) : (s.set r x).get r = x := by simp [get,set,h]
theorem get_set_of_ne (h : r ≠ rd) : (s.set rd x).get r = s.get r := by simp [get,set,h]
@[simp] theorem address_set (h : r ≠ .fp) : (s.set r x).address off = s.address off := by
  simp [address,set,h.symm]

theorem run_append (c d : List Inst) : s.run (c ++ d) = (s.run c).bind fun t => t.run d := by
  simp [run]

/-! Memory. -/

theorem fetch_congr {s t : Cpu} (h : ∀ i < n, s.mem (a + .ofNat 64 i) = t.mem (a + .ofNat 64 i)) :
    s.fetch n a = t.fetch n a := by
  induction n generalizing a with
  | zero => rfl
  | succ n ih =>
    have h0 := h 0 (Nat.succ_pos n)
    rw [BitVec.add_zero] at h0
    rw [fetch,fetch,h0,ih fun i hi => ?_]
    have := h (i + 1) (by omega)
    rwa [BitVec.ofNat_add,BitVec.add_comm (.ofNat 64 i),← BitVec.add_assoc] at this

theorem fetch_lt : s.fetch n a < 256 ^ n := by
  induction n generalizing a with
  | zero => exact Nat.one_pos
  | succ n ih =>
    have := ih (a := a + 1)
    have := (s.mem a).isLt
    rw [fetch,Nat.pow_succ]
    omega

theorem fetch_put_add (h : i + n ≤ k) (hk : k < 2 ^ 64) (v : Nat) :
    (s.put k a v).fetch n (a + .ofNat 64 i) = v / 256 ^ i % 256 ^ n := by
  induction n generalizing i with
  | zero => rw [fetch,Nat.pow_zero,Nat.mod_one]
  | succ n ih =>
    have hnext : a + BitVec.ofNat 64 i + 1 = a + BitVec.ofNat 64 (i + 1) := by
      rw [BitVec.add_assoc,BitVec.ofNat_add]
      rfl
    have hsub : (a + BitVec.ofNat 64 i - a).toNat = i := by
      rw [BitVec.add_comm,BitVec.add_sub_cancel,BitVec.toNat_ofNat,Nat.mod_eq_of_lt (by omega)]
    rw [fetch,hnext,ih (by omega)]
    simp only [put,hsub]
    rw [if_pos (by omega),BitVec.toNat_ofNat,Nat.pow_succ 256 i,Nat.pow_succ' (n := n),Nat.mod_mul,
      Nat.div_div_eq_div_mul]

theorem fetch_put (hn : n < 2 ^ 64) (v : Nat) : (s.put n a v).fetch n a = v % 256 ^ n := by
  have h := fetch_put_add (s := s) (a := a) (i := 0) (n := n) (by omega) hn v
  simpa using h

/-! Constants. -/

theorem run_load32 {n : Int} (h : IsWord n) (hr : rd ≠ .zero) :
    s.run (load32 n rd) = some (s.set rd (.ofInt 64 n)) := by
  obtain ⟨hlow,hhigh⟩ := h
  have hor : BitVec.ofInt 64 (n / 4096 * 4096) ||| BitVec.ofInt 64 (n % 4096) = .ofInt 64 n := by
    apply BitVec.eq_of_toNat_eq
    rw [BitVec.toNat_or,BitVec.toNat_ofInt,BitVec.toNat_ofInt,BitVec.toNat_ofInt,
      show (n / 4096 * 4096 % (2 ^ 64 : Nat)).toNat =
        2 ^ 12 * (n / 4096 * 4096 % (2 ^ 64 : Nat) / 4096).toNat by omega,
      ← Nat.two_pow_add_eq_or_of_lt (by omega)]
    omega
  have hword : word (n / 4096 * 4096) = .ofInt 64 (n / 4096 * 4096) := by
    rw [word,← wrap32_eq_bmod,IsWord.wrap32 ⟨by omega,by omega⟩]
  simp [run,load32,exec,get_set_self hr,hword,hor]

theorem toNat_wrap32 (n : Int) :
    (BitVec.ofInt 64 (wrap32 n)).toNat % 2 ^ 32 = (n % 4294967296).toNat := by
  rw [wrap32_eq_bmod,BitVec.toNat_ofInt,Int.bmod]
  omega

theorem run_load64 (n : Int) (hr : rd ≠ .zero) :
    s.run (load64 n rd) = some (s.set rd (.ofInt 64 n)) := by
  have hlow := toNat_wrap32 n
  simp only [load64,run_append,run_load32 (isWord_wrap32 n) hr]
  simp only [run,List.foldlM_cons,List.foldlM_nil,exec,get_set_self hr,set_set,Option.bind_eq_bind,
    Option.bind_some]
  congr 3
  simp only [BitVec.toNat_ofInt,Int.bmod] at *
  omega

theorem run_loadImm (n : Int) (hr : rd ≠ .zero) :
    s.run (loadImm (wrap32 n) rd) = some (s.set rd (.ofInt 64 (wrap32 n))) := by
  have hw := isWord_wrap32 n
  unfold loadImm
  split
  · simp [run,exec,word,← wrap32_eq_bmod,hw.wrap32]
  · exact run_load32 hw hr

/-! Slots. -/

/-- The access is made at the address in the frame; the scratch register may be overwritten before.
-/
theorem run_frameAccess (access : Reg → Int → Inst) (off : Int) {scratch : Reg}
    (hz : scratch ≠ .zero) (hfp : scratch ≠ .fp) :
    ∃ x base n, s.run (frameAccess access off scratch) = (s.set scratch x).exec (access base n) ∧
      (s.set scratch x).get base + .ofInt 64 n = s.address off := by
  unfold frameAccess
  split
  · exact ⟨s.reg scratch,.fp,off,by simp [run],by simp [get,address]⟩
  · refine ⟨s.address off,scratch,0,?_,by simp [get_set_self hz]⟩
    simp [run_append,run_load64 off hz]
    simp [run,exec,get_set_self hz,get_set_of_ne hfp.symm,get_of_ne,address]

theorem fetch_set : (s.set r x).fetch n a = s.fetch n a := fetch_congr fun _ _ => rfl

theorem bytes_of_generalWidth {t : Ty} {w : Width} (h : generalWidth t = .ok w) :
    w.bytes = t.size.toNat := by
  cases t with
  | bare k =>
    by_cases hk : k = 4 <;> simp [generalWidth,width?,Ty.isPointer,Ty.kind,hk] at h
    subst h hk
    rfl
  | _ => cases h <;> rfl

section
variable {t : Ty} {code : List Inst}

theorem run_loadSlot_eq (h : loadSlot off t rd = .ok code) (hz : rd ≠ .zero) (hfp : rd ≠ .fp) :
    ∃ w : Width, w.bytes = t.size.toNat ∧
      s.run code = some
        (s.set rd (.ofInt 64 (Int.bmod (s.fetch w.bytes (s.address off)) (256 ^ w.bytes)))) := by
  obtain ⟨w,hw,h⟩ := ok_of_bind h
  cases h
  obtain ⟨y,base,n,hrun,haddr⟩ := run_frameAccess (fun base n => .ld w rd base n) off hz hfp
  simp only [exec,set_set,haddr,fetch_set] at hrun
  exact ⟨w,bytes_of_generalWidth hw,hrun⟩

theorem run_loadSlot (h : loadSlot off t rd = .ok code) (hz : rd ≠ .zero) (hfp : rd ≠ .fp) :
    ∃ x, s.run code = some (s.set rd x) ∧ x.toNat % 256 ^ t.size.toNat =
      s.fetch t.size.toNat (s.address off) := by
  obtain ⟨w,hw,hrun⟩ := run_loadSlot_eq h hz hfp
  refine ⟨_,hrun,?_⟩
  rw [← hw]
  have hlt := s.fetch_lt (n := w.bytes) (a := s.address off)
  generalize s.fetch w.bytes (s.address off) = k at hlt
  rw [BitVec.toNat_ofInt]
  cases w <;> simp only [Width.bytes,Int.bmod] at * <;> omega

theorem run_storeSlot (h : storeSlot off t r = .ok code) (hr : r ≠ .t8) :
    ∃ x, s.run code = some ((s.set .t8 x).put t.size.toNat (s.address off) (s.get r).toNat) := by
  obtain ⟨w,hw,h⟩ := ok_of_bind h
  cases h
  obtain ⟨y,base,n,hrun,haddr⟩ :=
    run_frameAccess (fun base n => .st w r base n) off (show Reg.t8 ≠ .zero by decide) (by decide)
  refine ⟨y,?_⟩
  rw [hrun,exec,haddr,get_set_of_ne hr,bytes_of_generalWidth hw]

theorem run_loadFloatSlot (off : Int) (d : FReg) :
    ∃ x, s.run (loadFloatSlot off d) =
      some ((s.set .t8 x).setFloat d (.ofNat 32 (s.fetch 4 (s.address off)))) := by
  obtain ⟨y,base,n,hrun,haddr⟩ :=
    run_frameAccess (fun base n => .fld d base n) off (show Reg.t8 ≠ .zero by decide) (by decide)
  refine ⟨y,?_⟩
  rw [loadFloatSlot,hrun,exec,haddr,fetch_set]

theorem run_storeFloatSlot (off : Int) (f : FReg) :
    ∃ x, s.run (storeFloatSlot off f) =
      some ((s.set .t8 x).put 4 (s.address off) (s.freg f).toNat) := by
  obtain ⟨y,base,n,hrun,haddr⟩ :=
    run_frameAccess (fun base n => .fst f base n) off (show Reg.t8 ≠ .zero by decide) (by decide)
  refine ⟨y,?_⟩
  rw [storeFloatSlot,hrun,exec,haddr]
  rfl

end
end Cpu

/-- The immediate has room in its field. -/
def Inst.Encodable : Inst → Prop
  | .addiW _ _ n | .addiD _ _ n | .lu52iD _ _ n | .ld _ _ _ n | .st _ _ _ n | .fld _ _ n | .fst _ _
      n => -2048 ≤ n ∧ n ≤ 2047
  | .ori _ _ n | .xori _ _ n => 0 ≤ n ∧ n ≤ 4095
  | .lu12iW _ n | .lu32iD _ n => -524288 ≤ n ∧ n ≤ 524287
  | _ => True

def IsLong (n : Int) : Prop := -9223372036854775808 ≤ n ∧ n ≤ 9223372036854775807

theorem fitsImm_iff {n : Int} : fitsImm n = true ↔ -2048 ≤ n ∧ n ≤ 2047 := by simp [fitsImm]

section
variable {n : Int} {rd : Reg}

theorem encodable_load32 (h : IsWord n) : ∀ i ∈ load32 n rd, i.Encodable := by
  obtain ⟨h1,h2⟩ := h
  simp only [load32,List.forall_mem_cons,Inst.Encodable]
  exact ⟨by omega,by omega,fun _ h => absurd h List.not_mem_nil⟩

theorem encodable_load64 (h : IsLong n) : ∀ i ∈ load64 n rd, i.Encodable := by
  obtain ⟨h1,h2⟩ := h
  refine List.forall_mem_append.mpr ⟨encodable_load32 (isWord_wrap32 n),?_⟩
  simp only [List.forall_mem_cons,Inst.Encodable,Int.bmod]
  exact ⟨by omega,by omega,fun _ h => absurd h List.not_mem_nil⟩

/-- The code leaves a number in a register, whatever that held, and its immediates have room. -/
structure Sets (rd : Reg) (n : Int) (code : List Inst) : Prop where
  run : ∀ s : Cpu, s.run code = some (s.set rd (.ofInt 64 n))
  encodable : ∀ i ∈ code, i.Encodable

theorem sets_load32 (h : IsWord n) (hr : rd ≠ .zero) : Sets rd n (load32 n rd) :=
  ⟨fun _ => Cpu.run_load32 h hr,encodable_load32 h⟩

/-- Constants reach their registers in four, two, and one or two instructions. -/
theorem constants_exact (hr : rd ≠ .zero) :
    (∀ n, IsLong n → (load64 n rd).length = 4 ∧ Sets rd n (load64 n rd)) ∧
    (∀ n, IsWord n → (load32 n rd).length = 2 ∧ Sets rd n (load32 n rd)) ∧
    ∀ n, IsWord n → (loadImm n rd).length = (if fitsImm n then 1 else 2) ∧
      Sets rd n (loadImm n rd) := by
  refine ⟨fun n h => ⟨rfl,fun _ => Cpu.run_load64 n hr,encodable_load64 h⟩,
    fun n h => ⟨rfl,sets_load32 h hr⟩,fun n h => ?_⟩
  have hw : wrap32 n = n := h.wrap32
  refine ⟨?_,fun s => hw ▸ Cpu.run_loadImm n hr,?_⟩ <;> unfold loadImm <;> split
  · rfl
  · rfl
  · rename_i hf
    exact List.forall_mem_singleton.mpr (fitsImm_iff.mp hf)
  · exact encodable_load32 h

theorem constants_exact_turns : Reg.t0 ≠ .zero ∧ IsLong (-9223372036854775808) ∧ IsWord (-2049) ∧
    Sets .t0 (-9223372036854775808) (load64 (-9223372036854775808) .t0) ∧
    Sets .t0 (-2049) (load32 (-2049) .t0) ∧
    (loadImm (-2049) .t0).length = 2 ∧ Sets .t0 (-2049) (loadImm (-2049) .t0) := by
  obtain ⟨h64,h32,himm⟩ := constants_exact (show Reg.t0 ≠ .zero by decide)
  have hw : IsWord (-2049) := ⟨by decide,by decide⟩
  have hl : IsLong (-9223372036854775808) := ⟨by decide,by decide⟩
  exact ⟨by decide,hl,hw,(h64 _ hl).2,(h32 _ hw).2,(himm _ hw).1,(himm _ hw).2⟩

end

namespace Scope
variable (sc : Scope) (s : Cpu)

/-- The number in the bytes of an operand. -/
def bits : Operand → Option Nat
  | .literal c =>
    match (sc.module.literal c).value with
    | .int n => some (n % 4294967296).toNat
    | .float x => some x.bits.toNat
    | .undef _ => some 0
  | .global g => some (s.symbol (sc.module.global g).name).toNat
  | v => (sc.frame.offset? v).map fun off => s.fetch (sc.module.typeOf v).size.toNat (s.address off)

variable {sc s} {v : Operand} {rd : Reg} {code : List Inst}

theorem slot_eq_ok {off : Int} (h : sc.slot v = .ok off) : sc.frame.offset? v = some off := by
  unfold slot at h
  split at h <;> simp_all

theorem bits_of_offset {off : Int} (h : sc.frame.offset? v = some off) :
    sc.bits s v = some (s.fetch (sc.module.typeOf v).size.toNat (s.address off)) := by
  cases v <;> simp_all [bits,Frame.offset?]

theorem bits_congr {t : Cpu} (hsymbol : t.symbol = s.symbol)
    (h : ∀ off, sc.frame.offset? v = some off →
    t.fetch (sc.module.typeOf v).size.toNat (t.address off) =
      s.fetch (sc.module.typeOf v).size.toNat (s.address off)) :
    sc.bits t v = sc.bits s v := by
  cases v <;> simp only [bits,hsymbol]
  all_goals exact Option.map_congr h

theorem bits_set {r : Reg} (h : r ≠ .fp) (x : BitVec 64) (v : Operand) :
    sc.bits (s.set r x) v = sc.bits s v :=
  bits_congr rfl fun off _ => by rw [Cpu.address_set h,Cpu.fetch_set]

theorem run_load (h : sc.load v rd = .ok code) (hz : rd ≠ .zero) (hfp : rd ≠ .fp) :
    ∃ x, s.run code = some (s.set rd x) ∧
      sc.bits s v = some (x.toNat % 256 ^ (sc.module.typeOf v).size.toNat) := by
  have hslot : (do loadSlot (← sc.slot v) (sc.module.typeOf v) rd) = .ok code →
    ∃ x, s.run code = some (s.set rd x) ∧
      sc.bits s v = some (x.toNat % 256 ^ (sc.module.typeOf v).size.toNat) := by
    intro h
    obtain ⟨off,hoff,h⟩ := ok_of_bind h
    obtain ⟨x,hx,hk⟩ := Cpu.run_loadSlot h hz hfp
    exact ⟨x,hx,by rw [bits_of_offset (slot_eq_ok hoff),hk]⟩
  cases v with
  | literal c =>
    cases hc : (sc.module.literal c).value with
    | int n =>
      simp only [load,hc] at h
      cases h
      refine ⟨_,Cpu.run_loadImm n hz,?_⟩
      have hsize : (sc.module.typeOf (.literal c)).size.toNat = 4 := by
        simp [Module.typeOf,hc,Constant.type,Ty.size]
      rw [hsize]
      simp only [bits,hc]
      exact congrArg some (Cpu.toNat_wrap32 n).symm
    | undef t =>
      simp only [load,hc] at h
      cases h
      exact ⟨0,by simp [Cpu.run,Cpu.exec,word],by simp [bits,hc]⟩
    | float x =>
      simp only [load,hc] at h
      exact hslot h
  | global g =>
    cases h
    exact ⟨_,rfl,by simp [bits,Module.typeOf,Ty.size]; omega⟩
  | _ => exact hslot h

theorem run_store (h : sc.store v rd = .ok code) (hr : rd ≠ .t8) :
    ∃ off x, sc.frame.offset? v = some off ∧
    s.run code = some ((s.set .t8 x).put (sc.module.typeOf v).size.toNat (s.address off)
      (s.get rd).toNat) := by
  obtain ⟨off,hoff,h⟩ := ok_of_bind h
  obtain ⟨x,hx⟩ := Cpu.run_storeSlot h hr
  exact ⟨off,x,slot_eq_ok hoff,hx⟩

theorem run_loadFloat {d : FReg} (h : sc.loadFloat v d = .ok code) :
    ∃ x y, s.run code = some ((s.set .t8 y).setFloat d x) ∧
      ((sc.module.typeOf v).size = 4 → sc.bits s v = some x.toNat) := by
  have hslot : (if !(sc.module.typeOf v).isFloat
    then Except.error (.unsupported (.notFloat (sc.module.refText v)))
      else return loadFloatSlot (← sc.slot v) d) = .ok code →
      ∃ x y, s.run code = some ((s.set .t8 y).setFloat d x) ∧
        ((sc.module.typeOf v).size = 4 → sc.bits s v = some x.toNat) := by
    intro h
    split at h
    · cases h
    · obtain ⟨off,hoff,h⟩ := ok_of_bind h
      cases h
      obtain ⟨y,hy⟩ := Cpu.run_loadFloatSlot off d
      refine ⟨_,y,hy,fun ht => ?_⟩
      rw [bits_of_offset (slot_eq_ok hoff),ht]
      exact congrArg some (Nat.mod_eq_of_lt s.fetch_lt).symm
  cases v with
  | literal c =>
    cases hc : (sc.module.literal c).value with
    | float x =>
      simp only [loadFloat,hc] at h
      cases h
      refine ⟨.ofNat 32 (BitVec.ofInt 64 (wrap32 x.bits.toNat)).toNat,
        .ofInt 64 (wrap32 x.bits.toNat),?_,fun _ => ?_⟩
      · rw [Cpu.run_append,Cpu.run_load32 (isWord_wrap32 _) (by decide)]
        rfl
      · have hx := x.bits.toNat_lt
        simp only [bits,hc,BitVec.toNat_ofNat,Cpu.toNat_wrap32 x.bits.toNat]
        exact congrArg some (by omega)
    | undef t =>
      simp only [loadFloat,hc] at h
      cases h
      exact ⟨0,s.reg .t8,by simp [Cpu.run,Cpu.exec],fun _ => by simp [bits,hc]⟩
    | int n =>
      simp only [loadFloat,hc] at h
      exact hslot h
  | _ => exact hslot h

theorem run_storeFloat {f : FReg} (h : sc.storeFloat v f = .ok code) :
    ∃ off x, sc.frame.offset? v = some off ∧
    s.run code = some ((s.set .t8 x).put 4 (s.address off) (s.freg f).toNat) := by
  obtain ⟨off,hoff,h⟩ := ok_of_bind h
  cases h
  obtain ⟨x,hx⟩ := Cpu.run_storeFloatSlot off f
  exact ⟨off,x,slot_eq_ok hoff,hx⟩

end Scope
end CMinusF.Assembly
