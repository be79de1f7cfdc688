import CMinusF.Proofs.Assembly.PhiCopies

/-! Making a frame, taking it down again, and getting at what lies in it. -/
namespace CMinusF.Assembly
open Numeric List

theorem encodable_frameAccess (access : Reg → Int → Inst)
    (ha : ∀ base n, -2048 ≤ n ∧ n ≤ 2047 → (access base n).Encodable) {off : Int} (h : IsLong off)
    (r : Reg) : ∀ i ∈ frameAccess access off r, i.Encodable := by
  unfold frameAccess
  split
  · rename_i hf
    exact forall_mem_singleton.mpr (ha _ _ (fitsImm_iff.mp hf))
  · refine forall_mem_append.mpr ⟨encodable_load64 h,
      forall_mem_cons.mpr ⟨trivial,forall_mem_singleton.mpr ?_⟩⟩
    exact ha _ _ (by decide)

namespace Cpu
variable {s t u : Cpu} {size off : Int} {n k v : Nat} {a b : BitVec 64}

theorem fetch_put_of_far (h : ∀ i < n, k ≤ (a + .ofNat 64 i - b).toNat) :
    (s.put k b v).fetch n a = s.fetch n a :=
  fetch_congr fun i hi => if_neg (Nat.not_lt.mpr (h i hi))

/-- In `s` a function is called; in `t` it has a frame of a size. -/
structure Opened (size : Int) (s t : Cpu) : Prop where
  fp : t.reg .fp = s.reg .sp
  sp : t.reg .sp = s.reg .sp - .ofInt 64 size
  ra_saved : t.fetch 8 (s.reg .sp - 8) = (s.reg .ra).toNat
  fp_saved : t.fetch 8 (s.reg .sp - 16) = (s.reg .fp).toNat
  reg : ∀ r, r ∉ [.fp,.sp,.t0,.t8] → t.reg r = s.reg r
  freg : t.freg = s.freg

theorem run_cons (i : Inst) (c : List Inst) :
    s.run (i :: c) = (s.exec i).bind fun t => t.run c := rfl
theorem run_nil : s.run [] = some s := rfl

theorem reg_set (r r' : Reg) (x : BitVec 64) : (s.set r x).reg r' = if r' = r then x
    else s.reg r' := Function.update_apply ..
theorem reg_put (r : Reg) : (s.put n a k).reg r = s.reg r := rfl

theorem set_comm {r r' : Reg} (h : r ≠ r') (x y : BitVec 64) :
    (s.set r x).set r' y = (s.set r' y).set r x := by
  simp [set,Function.update_comm h]

theorem sub_ofInt (x : BitVec 64) (n : Int) : x - .ofInt 64 n = x + .ofInt 64 (-n) := by
  rw [BitVec.ofInt_neg,BitVec.sub_eq_add_neg]

theorem run_openFrame (h0 : 0 ≤ size) (h1 : size < 9223372036854775808) :
    ∃ x, s.run (Scope.openFrame size) =
    some (((((s.set .t0 x).put 8 (s.reg .sp - 8) (s.reg .ra).toNat).put 8 (s.reg .sp - 16)
      (s.reg .fp).toNat).set .fp (s.reg .sp)).set
      .sp (s.reg .sp - .ofInt 64 size)) := by
  have h8 : s.reg .sp - 8 = s.reg .sp + .ofInt 64 (-8) := sub_ofInt _ 8
  have h16 : s.reg .sp - 16 = s.reg .sp + .ofInt 64 (-16) := sub_ofInt _ 16
  unfold Scope.openFrame
  rw [wrap64_of_range (by omega) (by omega)]
  split
  · refine ⟨s.reg .t0,?_⟩
    simp only [run_cons,exec,Option.bind_some]
    rw [set_reg,h8,h16,sub_ofInt,show BitVec.ofInt 64 0 = 0#64 from rfl,BitVec.add_zero]
    rfl
  · refine ⟨.ofInt 64 size,?_⟩
    rw [run_append,run_load64 size (by decide)]
    simp only [run_cons,exec,Option.bind_some,get,reduceCtorEq,if_false,if_true,reg_set,
      BitVec.sub_add_cancel]
    rw [set_comm (by decide),h8,h16]
    rfl

theorem opened_openFrame (h0 : 0 ≤ size) (h1 : size < 9223372036854775808) :
    ∃ t, s.run (Scope.openFrame size) = some t ∧ Opened size s t := by
  obtain ⟨x,hx⟩ := run_openFrame h0 h1
  refine ⟨_,hx,?_,?_,?_,?_,?_,rfl⟩
  · simp [reg_set]
  · simp [reg_set]
  · rw [fetch_set,fetch_set,fetch_put_of_far fun i hi => ?_,fetch_put (by decide)]
    · exact Nat.mod_eq_of_lt (s.reg .ra).isLt
    · bv_omega
  · rw [fetch_set,fetch_set,fetch_put (by decide)]
    exact Nat.mod_eq_of_lt (s.reg .fp).isLt
  · intro r hr
    simp only [mem_cons,not_or] at hr
    simp [reg_set,reg_put,hr]

theorem Opened.put (h : Opened size s t) (x : BitVec 64) (h1 : -9223372036854775807 ≤ off)
    (h2 : off + n ≤ -16) :
    Opened size s ((t.set .t8 x).put n (t.address off) k) := by
  have hfar {d : Int} (hd : -16 ≤ d) (hd' : d ≤ -8) :
    ∀ i < 8, n ≤ (t.reg .fp + .ofInt 64 d + .ofNat 64 i - t.address off).toNat :=
    fun i hi => Keeps.apart t (a := d) (n := 8) (.inr (by omega)) (by omega) h1 (by omega)
      (by omega) hi
  have h8 : s.reg .sp - 8 = t.reg .fp + .ofInt 64 (-8) := by rw [h.fp]; exact sub_ofInt _ 8
  have h16 : s.reg .sp - 16 = t.reg .fp + .ofInt 64 (-16) := by rw [h.fp]; exact sub_ofInt _ 16
  refine ⟨?_,?_,?_,?_,?_,h.freg⟩
  · rw [reg_put,reg_set,if_neg (by decide)]
    exact h.fp
  · rw [reg_put,reg_set,if_neg (by decide)]
    exact h.sp
  · rw [fetch_put_of_far (h8 ▸ hfar (by decide) (by decide)),fetch_set]
    exact h.ra_saved
  · rw [fetch_put_of_far (h16 ▸ hfar (by decide) (by decide)),fetch_set]
    exact h.fp_saved
  · intro r hr
    rw [reg_put,reg_set,if_neg (by rintro rfl; simp at hr)]
    exact h.reg r hr

/-- The caller's registers are as they were in `s`; all else is as in `u`. -/
structure Closed (s u w : Cpu) : Prop where
  sp : w.reg .sp = s.reg .sp
  fp : w.reg .fp = s.reg .fp
  ra : w.reg .ra = s.reg .ra
  reg : ∀ r, r ∉ [.fp,.sp,.ra,.t0] → w.reg r = u.reg r
  freg : w.freg = u.freg
  mem : w.mem = u.mem

theorem run_closeFrame (size : Int) : ∃ x, u.run (Scope.closeFrame size).dropLast =
    let w := (u.set .t0 x).set .sp (u.reg .sp + .ofInt 64 size)
    some ((w.set .ra (.ofInt 64 (Int.bmod (u.fetch 8 (w.reg .sp - 8)) (256 ^ 8)))).set .fp
      (.ofInt 64 (Int.bmod (u.fetch 8 (w.reg .sp - 16)) (256 ^ 8)))) := by
  have h8 (x : BitVec 64) : x - 8 = x + .ofInt 64 (-8) := sub_ofInt _ 8
  have h16 (x : BitVec 64) : x - 16 = x + .ofInt 64 (-16) := sub_ofInt _ 16
  unfold Scope.closeFrame
  split
  · refine ⟨u.reg .t0,?_⟩
    show u.run [.addiD .sp .sp size,.ld .double .ra .sp (-8),.ld .double .fp .sp (-16)] = _
    simp only [run_cons,exec,Option.bind_some,get,if_true,reg_set,set_reg,fetch_set,h8,h16]
    rfl
  · refine ⟨.ofInt 64 size,?_⟩
    show u.run (load64 size .t0 ++ [.addD .sp .sp .t0,.ld .double .ra .sp (-8),
      .ld .double .fp .sp (-16)]) = _
    rw [run_append,run_load64 size (by decide)]
    simp only [h8,h16]
    rfl

theorem ofInt_bmod_toNat (x : BitVec 64) : BitVec.ofInt 64 (Int.bmod x.toNat (256 ^ 8)) = x := by
  rw [show (256 ^ 8 : Nat) = 2 ^ 64 from rfl,← BitVec.toInt_eq_toNat_bmod,BitVec.ofInt_toInt]

theorem Opened.closes (h : Opened size s t) (hsp : u.reg .sp = t.reg .sp)
    (hra : u.fetch 8 (s.reg .sp - 8) = t.fetch 8 (s.reg .sp - 8))
    (hfp : u.fetch 8 (s.reg .sp - 16) = t.fetch 8 (s.reg .sp - 16)) :
    ∃ w, u.run (Scope.closeFrame size).dropLast = some w ∧ Closed s u w := by
  obtain ⟨x,hx⟩ := run_closeFrame (u := u) size
  have hback : u.reg .sp + .ofInt 64 size = s.reg .sp := by rw [hsp,h.sp,BitVec.sub_add_cancel]
  simp only [hback,reg_set,if_true,hra,hfp,h.ra_saved,h.fp_saved,ofInt_bmod_toNat] at hx
  refine ⟨_,hx,?_,?_,?_,?_,rfl,rfl⟩
  · simp [reg_set]
  · simp [reg_set]
  · simp [reg_set]
  · intro r hr
    simp only [mem_cons,not_or] at hr
    simp [reg_set,hr]

end Cpu

namespace Scope
variable {sc : Scope} {s t : Cpu} {size : Int} {code : List Inst}

theorem encodable_storeSlot {off : Int} {t : Ty} {r : Reg} (h : storeSlot off t r = .ok code)
    (ho : IsLong off) : ∀ i ∈ code, i.Encodable := by
  obtain ⟨w,hw,h⟩ := ok_of_bind h
  cases h
  exact encodable_frameAccess (fun base n => .st w r base n) (fun _ _ h => h) ho .t8

theorem encodable_storeFloatSlot {off : Int} (r : FReg) (ho : IsLong off) :
    ∀ i ∈ storeFloatSlot off r, i.Encodable :=
  encodable_frameAccess (fun base n => .fst r base n) (fun _ _ h => h) ho .t8

theorem encodable_store {v : Operand} {r : Reg} (h : sc.store v r = .ok code)
    (ho : ∀ off, sc.frame.offset? v = some off → IsLong off) :
    ∀ i ∈ code, i.Encodable := by
  obtain ⟨off,hoff,h⟩ := ok_of_bind h
  exact encodable_storeSlot h (ho off (slot_eq_ok hoff))

theorem encodable_storeFloat {v : Operand} {r : FReg} (h : sc.storeFloat v r = .ok code)
    (ho : ∀ off, sc.frame.offset? v = some off → IsLong off) :
    ∀ i ∈ code, i.Encodable := by
  obtain ⟨off,hoff,h⟩ := ok_of_bind h
  cases h
  exact encodable_storeFloatSlot r (ho off (slot_eq_ok hoff))

/-- The value's bytes lie below the saved registers. -/
def Below (sc : Scope) (v : Operand) : Prop := ∀ off, sc.frame.offset? v = some off →
  0 < (sc.module.typeOf v).size ∧ -9223372036854775807 ≤ off ∧ off + (sc.module.typeOf v).size ≤ -16

theorem Below.isLong {v : Operand} (h : sc.Below v) :
    ∀ off, sc.frame.offset? v = some off → IsLong off := by
  intro off hoff
  have := h off hoff
  exact ⟨by omega,by omega⟩

/-- The arguments are stored one after another, and each store leaves the saved registers alone. -/
theorem opened_passArguments {e e' : Cause} {vs : List Operand} {rs : List Reg} {fs : List FReg}
    (hvs : ∀ v ∈ vs, sc.Below v) (hrs : .t8 ∉ rs)
    (h : sc.passArguments sc.store sc.storeFloat e e' rs fs vs = .ok code)
    (ho : Cpu.Opened size s t) :
    (∃ u, t.run code = some u ∧ Cpu.Opened size s u) ∧ ∀ i ∈ code, i.Encodable := by
  induction vs generalizing rs fs t code with
  | nil =>
    cases h
    exact ⟨⟨t,rfl,ho⟩,fun _ h => absurd h not_mem_nil⟩
  | cons v vs ih =>
    obtain ⟨hv,hvs⟩ := forall_mem_cons.mp hvs
    -- One store, then the rest.
    have step {fst : List Inst} {n : Nat} {off : Int} {x : BitVec 64} {k : Nat} {rs : List Reg}
      {fs : List FReg} (hrs : .t8 ∉ rs)
        (hfst : ∀ i ∈ fst, i.Encodable) (hrun : t.run fst =
          some ((t.set .t8 x).put n (t.address off) k))
        (hlow : -9223372036854775807 ≤ off) (hhigh : off + n ≤ -16)
        (h : (do return fst ++
          (← sc.passArguments sc.store sc.storeFloat e e' rs fs vs)) = .ok code) :
        (∃ u, t.run code = some u ∧ Cpu.Opened size s u) ∧ ∀ i ∈ code, i.Encodable := by
      obtain ⟨rest,hrest,h⟩ := ok_of_bind h
      cases h
      obtain ⟨⟨u,hu,hopen⟩,henc⟩ := ih hvs hrs hrest (ho.put x hlow hhigh)
      exact ⟨⟨u,by rw [Cpu.run_append,hrun,Option.bind_some,hu],hopen⟩,
        forall_mem_append.mpr ⟨hfst,henc⟩⟩
    unfold passArguments at h
    split at h
    · rename_i hfloat
      cases fs with
      | nil => cases h
      | cons r fs =>
        obtain ⟨fst,hstore,h⟩ := ok_of_bind h
        obtain ⟨off,x,hoff,hrun⟩ := run_storeFloat hstore
        obtain ⟨hpos,hlow,hhigh⟩ := hv off hoff
        exact step hrs (encodable_storeFloat hstore hv.isLong) hrun hlow
          (by rw [size_of_isFloat hfloat hpos] at hhigh; exact hhigh) h
    · cases rs with
      | nil => cases h
      | cons r rs =>
        obtain ⟨fst,hstore,h⟩ := ok_of_bind h
        obtain ⟨hr,hrs⟩ := not_or.mp fun h => hrs (mem_cons.mpr h)
        obtain ⟨off,x,hoff,hrun⟩ := run_store hstore (Ne.symm hr)
        obtain ⟨hpos,hlow,hhigh⟩ := hv off hoff
        exact step hrs (encodable_store hstore hv.isLong) hrun hlow (by omega) h

theorem encodable_openFrame (h : IsLong size) : ∀ i ∈ openFrame size, i.Encodable := by
  unfold openFrame
  split
  · rename_i hf
    simp only [forall_mem_cons,Inst.Encodable,fitsImm_iff.mp hf]
    simp
  · refine forall_mem_append.mpr ⟨encodable_load64 h,?_⟩
    simp [Inst.Encodable]

theorem encodable_closeFrame (h : IsLong size) : ∀ i ∈ closeFrame size, i.Encodable := by
  refine forall_mem_append.mpr ⟨?_,by simp [Inst.Encodable]⟩
  split
  · rename_i hf
    exact forall_mem_singleton.mpr (fitsImm_iff.mp hf)
  · exact forall_mem_append.mpr ⟨encodable_load64 h,forall_mem_singleton.mpr trivial⟩

theorem run_alloca {i : InstrId} (h : sc.alloca i = .ok code) (s : Cpu) :
    ∃ slot x, sc.frame.offset? (.instr i) = some slot ∧
    s.run code = some (((s.set .t0 (s.address (sc.frame.objects.getD i 0))).set .t8 x).put
      (sc.module.instr i).type.size.toNat
      (s.address slot) (s.address (sc.frame.objects.getD i 0)).toNat) := by
  obtain ⟨store,hstore,h⟩ := ok_of_bind h
  cases h
  generalize sc.frame.objects.getD i 0 = off
  have haddress : s.run (if fitsImm off then [.addiD .t0 .fp off]
      else load64 off .t0 ++ [.addD .t0 .fp .t0]) = some (s.set .t0 (s.address off)) := by
    split
    · rfl
    · rw [Cpu.run_append,Cpu.run_load64 off (by decide)]
      simp [Cpu.run_cons,Cpu.run_nil,Cpu.exec,Cpu.get,Cpu.reg_set,Cpu.address]
  obtain ⟨slot,x,hslot,hrun⟩ := run_store (s := s.set .t0 (s.address off)) hstore (by decide)
  refine ⟨slot,x,hslot,?_⟩
  rw [Cpu.run_append,haddress,Option.bind_some,hrun,Cpu.address_set (by decide),
    Cpu.get_set_self (by decide)]
  rfl

theorem encodable_alloca {i : InstrId} (h : sc.alloca i = .ok code)
    (ho : IsLong (sc.frame.objects.getD i 0))
    (hslot : ∀ off, sc.frame.offset? (.instr i) = some off → IsLong off) :
    ∀ i ∈ code, i.Encodable := by
  obtain ⟨store,hstore,h⟩ := ok_of_bind h
  cases h
  refine forall_mem_append.mpr ⟨?_,encodable_store hstore hslot⟩
  split
  · rename_i hf
    exact forall_mem_singleton.mpr (fitsImm_iff.mp hf)
  · exact forall_mem_append.mpr ⟨encodable_load64 ho,forall_mem_singleton.mpr trivial⟩

end Scope

theorem Settled.below {m : Module} {f : FuncId} {fr : Frame} (hs : Settled m f fr) {i : Nat}
    (hi : i < (m.func f).params.length) :
    Scope.Below ⟨m,fr⟩ (.arg f i) := by
  intro off hoff
  have hstart : fr.start? (.arg i) = some off := by
    simpa [Frame.offset?,hs.func,Frame.start?] using hoff
  have hin := hs.within (.arg i) off hstart
  have hpos := (hs.placed (.arg i) hi).2.1
  have hbound := hs.bound
  simp only [hs.func] at hin hpos
  exact ⟨hpos,by omega,hin.2.1⟩

theorem Settled.opened_prologue {m : Module} {f : FuncId} {fr : Frame} {code : List Inst}
    (hs : Settled m f fr) (h : Scope.prologue ⟨m,fr⟩ = .ok code) (s : Cpu) :
    (∃ t, s.run code = some t ∧ Cpu.Opened fr.size s t) ∧ ∀ i ∈ code, i.Encodable := by
  have hsize : 0 ≤ fr.size := by
    have := hs.saved
    simp only [Frame.savedBytes] at this
    omega
  have hbound := hs.bound
  have hlong : IsLong fr.size := ⟨by omega,hbound⟩
  obtain ⟨args,hargs,h⟩ := ok_of_bind h
  cases h
  obtain ⟨t,ht,hopen⟩ := Cpu.opened_openFrame hsize (by omega)
  have hbelow : ∀ v ∈ (range (m.func f).params.length).map fun i => Operand.arg fr.func i,
      Scope.Below ⟨m,fr⟩ v := by
    simp only [forall_mem_map,mem_range,hs.func]
    exact fun i hi => hs.below hi
  rw [← hs.func] at hbelow
  obtain ⟨⟨u,hu,hopen⟩,henc⟩ := Scope.opened_passArguments hbelow (by decide) hargs hopen
  refine ⟨⟨u,by rw [Cpu.run_append,ht,Option.bind_some,hu],hopen⟩,?_⟩
  exact forall_mem_append.mpr ⟨Scope.encodable_openFrame hlong,henc⟩

/-- The code that makes a frame of a size, and the code that takes it down. -/
structure FrameCode (size : Int) : Prop where
  opens : ∀ s, ∃ t, Cpu.run s (Scope.openFrame size) = some t ∧ Cpu.Opened size s t
  /-- Storing the arguments leaves the saved registers alone. -/
  prologue : ∀ m f fr code, Settled m f fr → fr.size = size → Scope.prologue ⟨m,fr⟩ = .ok code →
    ∀ s, (∃ t, Cpu.run s code = some t ∧ Cpu.Opened size s t) ∧ ∀ i ∈ code, i.Encodable
  closes : ∀ s t u, Cpu.Opened size s t → u.reg .sp = t.reg .sp →
    u.fetch 8 (s.reg .sp - 8) = t.fetch 8 (s.reg .sp - 8) →
    u.fetch 8 (s.reg .sp - 16) = t.fetch 8 (s.reg .sp - 16) →
      ∃ w, u.run (Scope.closeFrame size).dropLast = some w ∧ Cpu.Closed s u w
  returns : (Scope.closeFrame size).getLast? = some (.jr .ra)
  encodable : ∀ i ∈ Scope.openFrame size ++ Scope.closeFrame size, i.Encodable

/-- The code for what lies at an offset from the frame pointer. -/
structure SlotCode (off : Int) : Prop where
  load : ∀ t rd code, loadSlot off t rd = .ok code → rd ≠ .zero → rd ≠ .fp →
    (∀ s : Cpu, ∃ w : Width, w.bytes = t.size.toNat ∧
      s.run code = some
        (s.set rd (.ofInt 64 (Int.bmod (s.fetch w.bytes (s.address off)) (256 ^ w.bytes))))) ∧
        ∀ i ∈ code, i.Encodable
  store : ∀ t r code, storeSlot off t r = .ok code → r ≠ .t8 →
    (∀ s : Cpu, ∃ x, s.run code =
      some ((s.set .t8 x).put t.size.toNat (s.address off) (s.get r).toNat)) ∧
      ∀ i ∈ code, i.Encodable
  loadFloat : ∀ d, (∀ s : Cpu, ∃ x, s.run (loadFloatSlot off d) =
    some ((s.set .t8 x).setFloat d (.ofNat 32 (s.fetch 4 (s.address off))))) ∧
    ∀ i ∈ loadFloatSlot off d, i.Encodable
  storeFloat : ∀ f, (∀ s : Cpu, ∃ x, s.run (storeFloatSlot off f) =
    some ((s.set .t8 x).put 4 (s.address off) (s.freg f).toNat)) ∧
    ∀ i ∈ storeFloatSlot off f, i.Encodable
  /-- The address of an object goes to the slot of its `alloca`. -/
  alloca : ∀ (sc : Scope) i code, sc.frame.objects.getD i 0 = off → sc.alloca i = .ok code →
    (∀ s : Cpu, ∃ slot x, sc.frame.offset? (.instr i) = some slot ∧
      s.run code = some (((s.set .t0 (s.address off)).set .t8 x).put
      (sc.module.instr i).type.size.toNat (s.address slot) (s.address off).toNat)) ∧
    ((∀ slot, sc.frame.offset? (.instr i) = some slot → IsLong slot) → ∀ i ∈ code, i.Encodable)

theorem frame_code_exact {size : Int} (h₀ : 0 ≤ size) (h₁ : size < 2 ^ 63) :
    FrameCode size ∧ ∀ off, IsLong off → SlotCode off := by
  have hlong : IsLong size := ⟨by omega,by omega⟩
  refine ⟨{ opens := ?_, prologue := ?_, closes := ?_, returns := ?_, encodable := ?_ },
    fun off ho =>
    { load := ?_, store := ?_, loadFloat := ?_, storeFloat := ?_, alloca := ?_ }⟩
  · exact fun s => Cpu.opened_openFrame h₀ (by omega)
  · rintro m f fr code hs rfl h
    exact hs.opened_prologue h
  · exact fun s t u h => h.closes
  · exact getLast?_append_of_ne_nil _ (by simp)
  · exact forall_mem_append.mpr ⟨Scope.encodable_openFrame hlong,Scope.encodable_closeFrame hlong⟩
  · intro t rd code h hz hfp
    refine ⟨fun s => Cpu.run_loadSlot_eq h hz hfp,?_⟩
    obtain ⟨w,-,h⟩ := ok_of_bind h
    cases h
    exact encodable_frameAccess (fun base n => .ld w rd base n) (fun _ _ h => h) ho rd
  · exact fun t r code h hr => ⟨fun s => Cpu.run_storeSlot h hr,Scope.encodable_storeSlot h ho⟩
  · exact fun d => ⟨fun s => Cpu.run_loadFloatSlot off d,
      encodable_frameAccess (fun base n => .fld d base n) (fun _ _ h => h) ho .t8⟩
  · exact fun f => ⟨fun s => Cpu.run_storeFloatSlot off f,Scope.encodable_storeFloatSlot f ho⟩
  · rintro sc i code rfl h
    exact ⟨Scope.run_alloca h,Scope.encodable_alloca h ho⟩

/-- The size is the first whose negation has no room in the field, and that of the offset is one
byte past it. -/
theorem frame_code_exact_past_field : (0 : Int) ≤ 2064 ∧ (2064 : Int) < 2 ^ 63 ∧ IsLong (-2049) ∧
    (∀ s : Cpu, ∃ t w, s.run (Scope.openFrame 2064) = some t ∧ Cpu.Opened 2064 s t ∧
      t.run (Scope.closeFrame 2064).dropLast = some w ∧ Cpu.Closed s t w) ∧ SlotCode (-2049) := by
  obtain ⟨hframe,hslot⟩ := frame_code_exact (show (0 : Int) ≤ 2064 by decide) (by decide)
  refine ⟨by decide,by decide,⟨by decide,by decide⟩,fun s => ?_,hslot _ ⟨by decide,by decide⟩⟩
  obtain ⟨t,ht,hopen⟩ := hframe.opens s
  obtain ⟨w,hw,hclosed⟩ := hframe.closes s t t hopen rfl rfl rfl
  exact ⟨t,w,ht,hopen,hw,hclosed⟩

end CMinusF.Assembly
