import CMinusF.Proofs.Assembly.Function
import CMinusF.Proofs.Assembly.Processor
import CMinusF.Proofs.Lowering.Admissible

/-! Addresses of elements. The index is scaled by a multiplication of 32 bits, which is exact for
all indices below `2 ^ 29` and for no others. -/
namespace CMinusF.Assembly
open Numeric

theorem toNat_scaled (x y : BitVec 64) : (x + word (y.toInt * 4)).toNat % 256 ^ 8 =
    (((x.toNat % 256 ^ 8 : Nat) + Int.bmod (4 * (y.toNat % 256 ^ 4 : Nat)) 4294967296) %
      18446744073709551616).toNat := by
  have hx := x.isLt
  have hscaled : (y.toInt * 4).bmod 4294967296 =
      Int.bmod (4 * (y.toNat % 256 ^ 4 : Nat)) 4294967296 := by
    rw [BitVec.toInt_eq_toNat_bmod]
    simp only [Int.bmod]
    omega
  rw [BitVec.toNat_add,word,hscaled,BitVec.toNat_ofInt]
  generalize Int.bmod (4 * (y.toNat % 256 ^ 4 : Nat)) 4294967296 = d
  omega

namespace Scope
variable {sc : Scope} {s : Cpu} {i : InstrId} {code : List Inst}

theorem run_elementAddress (h : sc.elementAddress i = .ok code)
    (ht : (sc.module.instr i).type.size = 8)
    (he : ((sc.module.instr i).type.elem?.getD .void).size = 4) {base index : Operand}
    (hbase : sc.module.operand i 0 = base)
    (hindex : sc.module.operand i ((sc.module.operands i).length - 1) = index)
    (hb : (sc.module.typeOf base).size = 8) (hx : (sc.module.typeOf index).size = 4) :
    ∃ a k s', sc.bits s base = some a ∧ sc.bits s index = some k ∧ s.run code = some s' ∧
      sc.bits s' (.instr i) =
        some ((a + Int.bmod (4 * k) 4294967296) % 18446744073709551616).toNat := by
  unfold elementAddress at h
  dsimp only at h
  rw [hbase,hindex] at h
  obtain ⟨first,hfirst,h⟩ := ok_of_bind h
  obtain ⟨second,hsecond,h⟩ := ok_of_bind h
  obtain ⟨last,hlast,h⟩ := ok_of_bind h
  cases h
  obtain ⟨x,hrx,hbx⟩ := run_load (s := s) hfirst (by decide) (by decide)
  obtain ⟨y,hry,hby⟩ := run_load (s := s.set .t0 x) hsecond (by decide) (by decide)
  rw [bits_set (by decide)] at hby
  let t := (((s.set .t0 x).set .t1 y).set .t2 4).set .t3 (x + word (y.toInt * 4))
  have hpre : s.run
      (first ++ second ++ loadImm (wrap32 4) .t2 ++ [.arithW .mul .t3 .t1 .t2,.addD .t3 .t0 .t3]) =
      some t := by
    simp only [Cpu.run_append,hrx,hry,Option.bind_some,
      Cpu.run_loadImm 4 (show Reg.t2 ≠ .zero by decide)]
    simp [Cpu.run,Cpu.exec,Cpu.get,Cpu.set,t,show wrap32 4 = 4 from rfl]
  obtain ⟨off,z,hoff,hrz⟩ := run_store hlast (by decide)
  refine ⟨_,_,_,hbx,hby,Eq.trans (by rw [he,Cpu.run_append,hpre,Option.bind_some]) hrz,?_⟩
  have hsize : (sc.module.typeOf (.instr i)).size.toNat = 8 := congrArg Int.toNat ht
  have ht3 : t.get .t3 = x + word (y.toInt * 4) := Cpu.get_set_self (by decide)
  rw [bits_of_offset hoff,hsize,ht3,hb,hx]
  exact congrArg some ((Cpu.fetch_put (by decide) _).trans (toNat_scaled x y))

end Scope

/-! The elements that programs name. -/
section
open Lowering
variable {L : Law} {m : Module} {ns : Notes} {b : BlockId} {n i j : InstrId} {v : Operand} {t : Ty}
  {fr : Frame} {f : FuncId}

/-- A general register can be loaded with the value. -/
def Loadable (m : Module) (f : FuncId) (v : Operand) (t : Ty) : Prop :=
  m.typeOf v = t ∧ ((∃ g, v = .global g) ∨ (∃ c k, v = .literal c ∧ (m.literal c).value = .int k) ∨
    ∃ j ∈ m.instrs f, (m.instr j).type.isVoid = false ∧ v = .instr j)

theorem Loadable.load_eq_ok (h : Loadable m f v t) (hc : fr.Covers m f []) {w : Width}
    (hw : generalWidth t = .ok w) (rd : Reg) :
    ∃ code, Scope.load ⟨m,fr⟩ v rd = .ok code := by
  obtain ⟨rfl,⟨g,rfl⟩ | ⟨c,k,rfl,hk⟩ | ⟨j,hj,hv,rfl⟩⟩ := h
  · exact ⟨_,rfl⟩
  · exact ⟨loadImm (wrap32 k) rd,by simp only [Scope.load,hk]⟩
  · obtain ⟨off,ho⟩ := Option.isSome_iff_exists.mp ((hc.2 j hj hv).resolve_left (by simp))
    exact ⟨_,by simp only [Scope.load,Scope.slot,Frame.offset?,ho,loadSlot,hw]; rfl⟩

theorem store_eq_ok (hc : fr.Covers m f []) (hi : i ∈ m.instrs f)
    (ht : (m.instr i).type = .pointer t) (rs : Reg) :
    ∃ code, Scope.store ⟨m,fr⟩ (.instr i) rs = .ok code := by
  obtain ⟨off,ho⟩ :=
    Option.isSome_iff_exists.mp ((hc.2 i hi (by rw [ht]; rfl)).resolve_left (by simp))
  exact ⟨_,by simp only [Scope.store,Scope.slot,Frame.offset?,ho,Module.typeOf,ht]; rfl⟩

theorem Laid.loadable (hm : Laid L m ns) (hb : m.Listed b) (hn : n ≤ m.instrTable.size) (hj : j < n)
    {c : BlockId} (hp : (m.code.instr j).parent = some c) (hc : Above ns c b)
    (ht : (m.code.instr j).type = t) (hv : t.isVoid = false) :
    Loadable m b.func (.instr j) t := by
  subst ht
  obtain ⟨hl,hj⟩ := hm.listed_of_parent (hj.trans_le hn) hp
  exact ⟨rfl,.inr
    (.inr ⟨j,Module.mem_instrs_iff.mpr ⟨c,(hm.func_of_above hc hb).1 ▸ hl,hj⟩,hv,rfl⟩)⟩

theorem Has.loadable (hm : Laid L m ns) (hb : m.Listed b) (hn : n ≤ m.instrTable.size)
    (h : Has L m ns b n v t) (ht : t ≠ .float) :
    Loadable m b.func v t := by
  cases h with
  | int hc hk => exact ⟨congrArg Constant.type hk,.inr (.inl ⟨_,_,rfl,hk⟩)⟩
  | float => exact absurd rfl ht
  | instr hj hp ha ht hv => exact Laid.loadable hm hb hn hj hp ha ht hv

theorem Place.loadable (hm : Laid L m ns) (hb : m.Listed b) (hn : n ≤ m.instrTable.size)
    (h : Place m n b.func v t) :
    Loadable m b.func v (.pointer t) := by
  cases h with
  | global hg ht => exact ⟨congrArg Ty.pointer ht,.inl ⟨_,rfl⟩⟩
  | slot hj hp _ ht => exact Laid.loadable hm hb hn hj hp (hm.above_entry hb) ht rfl

/-- The base comes first and the index last, and there is at most a zero between them. -/
theorem Laid.gep (hm : Laid L m ns) (hi : i ∈ m.instrs f) (hop : (m.instr i).op = .gep) :
    ∃ base index t u, (m.operands i = [base,index] ∨ ∃ z, IsZero m z ∧
      m.operands i = [base,z,index]) ∧
      Loadable m f base (.pointer u) ∧ Loadable m f index .i32 ∧ (m.instr i).type = .pointer t ∧
      t.size = 4 := by
  obtain ⟨b,rfl,hb,hib,hf⟩ := hm.fits_of_mem hi
  have hn := (hm.member b i hib).1.le
  unfold FitsAt at hf
  have hop : (m.code.instr i).op = .gep := hop
  have hops : m.operands i = (m.code.instr i).operands := rfl
  have htype : (m.instr i).type = (m.code.instr i).type := rfl
  rw [hop] at hf
  rw [hops,htype]
  generalize (m.code.instr i).operands = vs,(m.code.instr i).type = t,(m.code.instr i).object =
    object at hf
  have hs : ∀ s : Scalar, (scalarType s).size = 4 := fun s => by cases s <;> rfl
  cases hf with
  | gepElement hp hz hv =>
    exact ⟨_,_,_,_,.inr ⟨_,hz,rfl⟩,Place.loadable hm hb hn hp,
      Has.loadable hm hb hn hv (by simp),rfl,hs _⟩
  | gepFirst hp hz hz' =>
    obtain ⟨c,rfl,hc,hk⟩ := hz'
    exact ⟨_,_,_,_,.inr ⟨_,hz,rfl⟩,Place.loadable hm hb hn hp,
      ⟨congrArg Constant.type hk,.inr (.inl ⟨_,_,rfl,hk⟩)⟩,rfl,hs _⟩
  | gepOffset hp _ hv =>
    exact ⟨_,_,_,_,.inl rfl,Has.loadable hm hb hn hp (by simp),
      Has.loadable hm hb hn hv (by simp),rfl,hs _⟩

/-- The code for an element is made in any frame, and what it leaves in the slot of the result. -/
theorem run_elementAddress_of_ofSource {name source : String}
    (h : Module.ofSource name source = .ok m) (hi : i ∈ m.instrs f) (hop : (m.instr i).op = .gep)
    (hl : Frame.layout m f = .ok fr) :
    ∃ base index code, (m.operands i = [base,index] ∨ ∃ z, IsZero m z ∧
      m.operands i = [base,z,index]) ∧
      Scope.elementAddress ⟨m,fr⟩ i = .ok code ∧ ∀ s :
        Cpu, ∃ a k s', Scope.bits ⟨m,fr⟩ s base = some a ∧ Scope.bits ⟨m,fr⟩ s index = some k ∧
        s.run code = some s' ∧ Scope.bits ⟨m,fr⟩ s' (.instr i) =
          some ((a + Int.bmod (4 * k) 4294967296) % 18446744073709551616).toNat := by
  obtain ⟨p,-,hp⟩ := Module.ofSource_eq_ok h
  obtain ⟨ns,xs,d,hs,rfl⟩ :=
    Lowering.sound_of_lower (fun _ _ => trivial) (fun x _ => Lowering.anyLaw_declares x) hp
  obtain ⟨base,index,t,u,hops,hbase,hindex,ht,hsize⟩ := Laid.gep hs.built.toLaid hi hop
  have hc := Frame.meets_layout d.module f
  rw [hl] at hc
  obtain ⟨first,hfirst⟩ := hbase.load_eq_ok hc rfl .t0
  obtain ⟨second,hsecond⟩ := hindex.load_eq_ok hc rfl .t1
  obtain ⟨last,hlast⟩ := store_eq_ok hc hi ht .t3
  have h0 : d.module.operand i 0 = base ∧
      d.module.operand i ((d.module.operands i).length - 1) = index := by
    rcases hops with hops | ⟨z,_,hops⟩ <;> simp [Module.operand,hops]
  have hok : ∃ code, Scope.elementAddress ⟨d.module,fr⟩ i = .ok code :=
    ⟨_,by simp only [Scope.elementAddress,h0.1,h0.2,hfirst,hsecond,hlast]; rfl⟩
  obtain ⟨code,hcode⟩ := hok
  exact ⟨base,index,code,hops,hcode,fun s => Scope.run_elementAddress hcode (by rw [ht]; rfl)
    (by rw [ht]; exact hsize)
    h0.1 h0.2 (by rw [hbase.1]; rfl) (by rw [hindex.1]; rfl)⟩

end

theorem ok_of_isSome {α : Type} {x : Except Failure α} (h : x.toOption.isSome = true) :
    ∃ a, x = .ok a := by
  cases x with
  | ok a => exact ⟨a,rfl⟩
  | error e => cases h

/-- The code for an element of an array in an accepted program gives its address exactly if the
index is below `2 ^ 29`. -/
theorem element_address_exact {name source : String} {m : Module}
    (h : Module.ofSource name source = .ok m) {f : FuncId} {i : InstrId} (hi : i ∈ m.instrs f)
    (hop : (m.instr i).op = .gep) {fr : Frame} (hl : Frame.layout m f = .ok fr) :
    ∃ base index code, (m.operands i = [base,index] ∨ ∃ z, Lowering.IsZero m z ∧
      m.operands i = [base,z,index]) ∧
      Scope.elementAddress ⟨m,fr⟩ i = .ok code ∧ ∀ s :
        Cpu, ∃ a k s', Scope.bits ⟨m,fr⟩ s base = some a ∧ Scope.bits ⟨m,fr⟩ s index = some k ∧
        s.run code = some s' ∧
        (k < 2 ^ 31 → (Scope.bits ⟨m,fr⟩ s' (.instr i) = some ((a + 4 * k) % 2 ^ 64) ↔
          k < 2 ^ 29)) := by
  obtain ⟨base,index,code,hops,hcode,hrun⟩ := run_elementAddress_of_ofSource h hi hop hl
  refine ⟨base,index,code,hops,hcode,fun s => ?_⟩
  obtain ⟨a,k,s',ha,hk,hs',hbits⟩ := hrun s
  refine ⟨a,k,s',ha,hk,hs',fun hlt => ?_⟩
  rw [hbits,Option.some.injEq]
  simp only [Int.bmod]
  omega

theorem element_address_exact_input :
    ∃ m fr, Module.ofSource "table" "int a[10]; int main(void) { return a[input()]; }" = .ok m ∧
      5 ∈ m.instrs 4 ∧ (m.instr 5).op = .gep ∧
      Frame.layout m 4 = .ok fr ∧ ∃ base index code, Scope.elementAddress ⟨m,fr⟩ 5 = .ok code ∧
        ∀ s : Cpu, ∃ a k s',
        Scope.bits ⟨m,fr⟩ s base = some a ∧ Scope.bits ⟨m,fr⟩ s index = some k ∧
        s.run code = some s' ∧
        (k < 10 → Scope.bits ⟨m,fr⟩ s' (.instr 5) = some ((a + 4 * k) % 2 ^ 64)) := by
  obtain ⟨m,hm,hP⟩ :=
    Module.exists_ofSource "table" "int a[10]; int main(void) { return a[input()]; }"
    (fun m => 5 ∈ m.instrs 4 ∧ (m.instr 5).op = .gep ∧ (Frame.layout m 4).toOption.isSome)
      (by decide +kernel)
  obtain ⟨hi,hop,hl⟩ := of_decide_eq_true hP
  obtain ⟨fr,hl⟩ := ok_of_isSome hl
  obtain ⟨base,index,code,-,hcode,hrun⟩ := element_address_exact hm hi hop hl
  refine ⟨m,fr,hm,hi,hop,hl,base,index,code,hcode,fun s => ?_⟩
  obtain ⟨a,k,s',ha,hk,hs',hbits⟩ := hrun s
  exact ⟨a,k,s',ha,hk,hs',fun hlt => (hbits (by omega)).mpr (by omega)⟩

/-- The element lies `2 ^ 31` bytes above the start of the array, and its address is taken as far
below. -/
theorem element_address_wraps :
    ∃ m fr code, Module.ofSource "table"
      "int a[1073741824]; int main(void) { return a[536870912]; }" = .ok m ∧ (m.instr 4).op = .gep ∧
      m.typeOf (m.operand 4 0) = .pointer (.array 1073741824 .i32) ∧ Frame.layout m 4 = .ok fr ∧
      Scope.elementAddress ⟨m,fr⟩ 4 = .ok code ∧
      ∀ s : Cpu, ∃ a s', Scope.bits ⟨m,fr⟩ s (m.operand 4 0) = some a ∧
        Scope.bits ⟨m,fr⟩ s (m.operand 4 2) = some 536870912 ∧
        s.run code = some s' ∧ Scope.bits ⟨m,fr⟩ s' (.instr 4) ≠
          some ((a + 4 * 536870912) % 2 ^ 64) := by
  obtain ⟨m,hm,hP⟩ :=
    Module.exists_ofSource "table" "int a[1073741824]; int main(void) { return a[536870912]; }"
    (fun m => 4 ∈ m.instrs 4 ∧ (m.instr 4).op = .gep ∧
      m.operands 4 = [.global 0,.literal 2,.literal 0] ∧
      (m.literal 0).value = .int 536870912 ∧ m.typeOf (m.operand 4 0) =
        .pointer (.array 1073741824 .i32) ∧
      (Frame.layout m 4).toOption.isSome) (by decide +kernel)
  obtain ⟨hi,hop,hops,hindex,htype,hl⟩ := of_decide_eq_true hP
  obtain ⟨fr,hl⟩ := ok_of_isSome hl
  obtain ⟨base,index,code,hops',hcode,hrun⟩ := run_elementAddress_of_ofSource hm hi hop hl
  obtain ⟨rfl,rfl⟩ : base = m.operand 4 0 ∧ index = m.operand 4 2 := by
    rw [hops] at hops'
    rcases hops' with h | ⟨z,-,h⟩ <;> cases h
    simp [Module.operand,hops]
  refine ⟨m,fr,code,hm,hop,htype,hl,hcode,fun s => ?_⟩
  obtain ⟨a,k,s',ha,hk,hs',hbits⟩ := hrun s
  obtain rfl : 536870912 = k := by simpa [Module.operand,hops,Scope.bits,hindex] using hk
  refine ⟨a,s',ha,hk,hs',?_⟩
  rw [hbits,ne_eq,Option.some.injEq]
  simp only [Int.bmod]
  omega

end CMinusF.Assembly
