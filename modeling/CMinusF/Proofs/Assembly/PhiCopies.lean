import CMinusF.Proofs.Assembly.Layout
import CMinusF.Proofs.Assembly.Processor

/-! The phis of the blocks after a block are assigned all at once: each takes the value that its
source had before. -/
namespace CMinusF.Assembly
open Numeric List

/-- The number in the bytes of an owner. -/
def Scope.content (sc : Scope) (s : Cpu) (o : Owner) : Option Nat :=
  (sc.frame.start? o).map fun a => s.fetch (o.size sc.module sc.frame.func).toNat (s.address a)

/-- Beyond the registers that phis pass through, only bytes of some owners have changed. -/
structure Keeps (sc : Scope) (O : Owner → Prop) (s s' : Cpu) : Prop where
  reg : ∀ r, r ≠ .a0 → r ≠ .t8 → s'.reg r = s.reg r
  freg : ∀ r, r ≠ .fa0 → s'.freg r = s.freg r
  symbol : s'.symbol = s.symbol
  mem : ∀ x, (∀ o a, O o → sc.frame.start? o = some a →
    (o.size sc.module sc.frame.func).toNat ≤ (x - s.address a).toNat) → s'.mem x = s.mem x

namespace Keeps
variable {sc : Scope} {O O' : Owner → Prop} {s t u : Cpu} {o : Owner} {v : Operand} {f : FuncId}

theorem refl : Keeps sc O s s := ⟨fun _ _ _ => rfl,fun _ _ => rfl,rfl,fun _ _ => rfl⟩

theorem address (h : Keeps sc O s t) (off : Int) : t.address off = s.address off := by
  rw [Cpu.address,Cpu.address,h.reg .fp (by decide) (by decide)]

theorem trans (h : Keeps sc O s t) (h' : Keeps sc O' t u) (hO : ∀ o, O' o → O o) :
    Keeps sc O s u where
  reg r ha ht := (h'.reg r ha ht).trans (h.reg r ha ht)
  freg r hr := (h'.freg r hr).trans (h.freg r hr)
  symbol := h'.symbol.trans h.symbol
  mem x hx := (h'.mem x fun o a ho ha => h.address a ▸ hx o a (hO o ho) ha).trans (h.mem x hx)


theorem apart (s : Cpu) {a b : Int} {i n k : Nat} (h : a + n ≤ b ∨ b + k ≤ a)
    (ha : -9223372036854775807 ≤ a) (hb : -9223372036854775807 ≤ b) (ha' : a + n ≤ 0)
    (hb' : b + k ≤ 0) (hi : i < n) : k ≤ (s.address a + .ofNat 64 i - s.address b).toNat := by
  have hsub : s.address a + .ofNat 64 i - s.address b = .ofInt 64 (a + i - b) := by
    rw [Cpu.address,Cpu.address,Int.sub_eq_add_neg,BitVec.ofInt_add,BitVec.ofInt_add,
      BitVec.ofInt_neg,BitVec.ofInt_natCast]
    grind
  rw [hsub,BitVec.toNat_ofInt]
  omega

theorem content (h : Keeps sc O s t) (hs : Settled sc.module f sc.frame) (ho : ¬ O o) :
    sc.content t o = sc.content s o := by
  refine Option.map_congr fun a ha => ?_
  rw [h.address]
  refine Cpu.fetch_congr fun i hi => h.mem _ fun o' b hO hb => ?_
  have hne : o ≠ o' := by
    rintro rfl
    exact ho hO
  have hapart := hs.apart o o' a b hne ha hb
  have h1 := hs.within o a ha
  have h2 := hs.within o' b hb
  have hbound := hs.bound
  simp only [Frame.savedBytes] at h1 h2
  rcases Int.le_total (o'.size sc.module sc.frame.func) 0 with h0 | h0
  · rw [Int.toNat_of_nonpos h0]
    exact Nat.zero_le _
  · exact apart s (by omega) (by omega) (by omega) (by omega) (by omega) hi

theorem bits (h : Keeps sc O s t) (hs : Settled sc.module f sc.frame) (ha : ∀ i, ¬ O (.arg i))
    (hv : ∀ p, v = .instr p → ¬ O (.value p)) :
    sc.bits t v = sc.bits s v := by
  refine Scope.bits_congr h.symbol fun off hoff => ?_
  cases v with
  | instr p =>
    have := h.content hs (hv p rfl)
    simp only [Scope.content,Frame.start?,show sc.frame.values[p]? = some off
      from hoff,Option.map_some] at this
    exact Option.some.inj this
  | arg g i =>
    simp only [Frame.offset?] at hoff
    split at hoff
    · subst g
      have := h.content hs (ha i)
      simp only [Scope.content,Frame.start?,hoff,Option.map_some] at this
      exact Option.some.inj this
    · cases hoff
  | _ => cases hoff

end Keeps

/-- The code leaves a number in the bytes of an owner and other memory as it was. -/
def Delivers (sc : Scope) (s : Cpu) (code : List Inst) (o : Owner) (k : Nat) : Prop :=
  ∃ s', s.run code = some s' ∧ Keeps sc (· = o) s s' ∧ sc.content s' o = some k

section
variable {sc : Scope} {s : Cpu} {c d : List Inst} {o : Owner} {off : Int} {k : Nat}

theorem delivers_put {t : Cpu} {x : BitVec 64} {n j : Nat} (hstart : sc.frame.start? o = some off)
    (hsize : (o.size sc.module sc.frame.func).toNat = n) (hn : n < 2 ^ 64) (hc : s.run c = some t)
    (ht : Keeps sc (fun _ => False) s t)
    (hd : t.run d = some ((t.set .t8 x).put n (t.address off) j)) :
    Delivers sc s (c ++ d) o (j % 256 ^ n) := by
  refine ⟨(t.set .t8 x).put n (t.address off) j,by rw [Cpu.run_append,hc]; exact hd,
    ⟨fun r ha hr => ?_,ht.freg,ht.symbol,fun y hy => ?_⟩,?_⟩
  · exact (Function.update_of_ne hr _ _).trans (ht.reg r ha hr)
  · have hfar := hy o off rfl hstart
    rw [hsize,← ht.address] at hfar
    exact (if_neg (by omega)).trans (ht.mem y fun _ _ h => h.elim)
  · rw [Scope.content,hstart,hsize]
    exact congrArg some (Cpu.fetch_put hn j)

theorem keeps_set (x : BitVec 64) : Keeps sc (fun _ => False) s (s.set .a0 x) :=
  ⟨fun _ ha _ => Function.update_of_ne ha _ _,fun _ _ => rfl,rfl,fun _ _ => rfl⟩

theorem keeps_setFloat (x : BitVec 64) (y : BitVec 32) :
    Keeps sc (fun _ => False) s ((s.set .t8 x).setFloat .fa0 y) :=
  ⟨fun _ _ ht => Function.update_of_ne ht _ _,fun _ hr => Function.update_of_ne hr _ _,rfl,
    fun _ _ => rfl⟩

theorem delivers_storeSlot {t : Ty} {x : BitVec 64} (hstart : sc.frame.start? o = some off)
    (hsize : o.size sc.module sc.frame.func = t.size) (hc : s.run c = some (s.set .a0 x))
    (hd : storeSlot off t .a0 = .ok d) :
    Delivers sc s (c ++ d) o (x.toNat % 256 ^ t.size.toNat) := by
  obtain ⟨y,hy⟩ := Cpu.run_storeSlot hd (by decide)
  rw [Cpu.get_set_self (by decide)] at hy
  obtain ⟨w,hw,-⟩ := ok_of_bind hd
  have hn : t.size.toNat < 2 ^ 64 := by
    rw [← Cpu.bytes_of_generalWidth hw]
    cases w <;> decide
  exact delivers_put hstart (congrArg Int.toNat hsize) hn hc (keeps_set x) hy

theorem delivers_storeFloatSlot {x : BitVec 32} {y : BitVec 64}
    (hstart : sc.frame.start? o = some off) (hsize : o.size sc.module sc.frame.func = 4)
    (hc : s.run c = some ((s.set .t8 y).setFloat .fa0 x)) :
    Delivers sc s (c ++ storeFloatSlot off .fa0) o x.toNat := by
  obtain ⟨z,hz⟩ := Cpu.run_storeFloatSlot (s := (s.set .t8 y).setFloat .fa0 x) off .fa0
  have h := delivers_put hstart (congrArg Int.toNat hsize) (by decide) hc (keeps_setFloat y x) hz
  rwa [Nat.mod_eq_of_lt (by simp; omega)] at h

/-- What is read for a source while the phis of `ps` are in their shadows. -/
def Scope.source (sc : Scope) (ps : List InstrId) (s : Cpu) (v : Operand) : Option Nat :=
  match v with
  | .instr p => if p ∈ ps then sc.content s (.shadow p) else sc.bits s v
  | _ => sc.bits s v

theorem size_of_isFloat {t : Ty} (ht : t.isFloat = true) (h : 0 < t.size) : t.size = 4 := by
  cases t with
  | bare k =>
    obtain rfl : k = 3 := by simpa [Ty.isFloat,Ty.kind] using ht
    cases h
  | _ => first | rfl | cases ht

end

namespace Settled
variable {m : Module} {f : FuncId} {fr : Frame} {s : Cpu} {code : List Inst} {p d : InstrId}
  {ps : List InstrId} {v : Operand}
variable (hs : Settled m f fr)
include hs

theorem shadow (hp : (Owner.shadow p).Of m f) :
    fr.start? (.shadow p) = some (Scope.shadowOffset ⟨m,fr⟩ p) := by
  obtain ⟨off,hoff⟩ := Option.isSome_iff_exists.mp (hs.placed _ hp).1
  rw [hoff,Scope.shadowOffset,Std.TreeMap.getD_eq_getD_getElem?,show fr.shadows[p]? = some off
    from hoff,Option.getD_some]

theorem size_of_float (hp : (Owner.value p).Of m f) (ht : (m.instr p).type.isFloat = true) :
    (m.instr p).type.size = 4 :=
  size_of_isFloat ht (hs.placed _ hp).2.1

theorem delivers_stage (hp : (Owner.shadow p).Of m f) (hv : (Owner.value p).Of m f)
    (h : Scope.stage ⟨m,fr⟩ p = .ok code) :
    ∃ k, Scope.content ⟨m,fr⟩ s (.value p) = some k ∧ Delivers ⟨m,fr⟩ s code (.shadow p) k := by
  unfold Scope.stage at h
  dsimp only at h
  split at h
  · have hsize := hs.size_of_float hv ‹_›
    obtain ⟨c,hc,h⟩ := ok_of_bind h
    cases h
    obtain ⟨x,y,hrun,hbits⟩ := Scope.run_loadFloat hc
    exact ⟨x.toNat,hbits hsize,delivers_storeFloatSlot (hs.shadow hp) hsize hrun⟩
  · obtain ⟨c,hc,h⟩ := ok_of_bind h
    obtain ⟨d,hd,h⟩ := ok_of_bind h
    cases h
    obtain ⟨x,hrun,hbits⟩ := Scope.run_load hc (by decide) (by decide)
    exact ⟨_,hbits,delivers_storeSlot (hs.shadow hp) rfl hrun hd⟩

theorem delivers_assign (hps : ∀ p ∈ ps, (Owner.shadow p).Of m f) (hd : d ∈ m.instrs f)
    (ht : m.typeOf v = (m.instr d).type) (h : Scope.assign ⟨m,fr⟩ ps d v = .ok code) :
    ∃ k, Scope.source ⟨m,fr⟩ ps s v = some k ∧ Delivers ⟨m,fr⟩ s code (.value d) k := by
  have hfloat : (m.instr d).type.isFloat = true → (m.instr d).type.size = 4 := fun hf =>
    hs.size_of_float ⟨hd,by cases hv : (m.instr d).type <;> simp_all [Ty.isVoid,Ty.isFloat]⟩ hf
  have hputFloat : ∀ {c e x y}, Scope.storeFloat ⟨m,fr⟩ (.instr d) .fa0 = .ok e →
    (m.instr d).type.isFloat = true →
      s.run c = some ((s.set .t8 y).setFloat .fa0 x) →
        Delivers ⟨m,fr⟩ s (c ++ e) (.value d) x.toNat := by
    intro c e x y he hf hrun
    obtain ⟨off,hoff,he⟩ := ok_of_bind he
    cases he
    exact delivers_storeFloatSlot (Scope.slot_eq_ok hoff) (hfloat hf) hrun
  have hput : ∀ {c e x}, Scope.store ⟨m,fr⟩ (.instr d) .a0 = .ok e → s.run c = some (s.set .a0 x) →
      Delivers ⟨m,fr⟩ s (c ++ e) (.value d) (x.toNat % 256 ^ (m.instr d).type.size.toNat) := by
    intro c e x he hrun
    obtain ⟨off,hoff,he⟩ := ok_of_bind he
    exact delivers_storeSlot (Scope.slot_eq_ok hoff) rfl hrun he
  by_cases hv : ∃ p ∈ ps, v = .instr p
  · obtain ⟨p,hp,rfl⟩ := hv
    have hsource : Scope.source ⟨m,fr⟩ ps s (.instr p) =
        some (s.fetch (m.instr d).type.size.toNat (s.address (Scope.shadowOffset ⟨m,fr⟩ p))) := by
      simp only [Scope.source,if_pos hp,Scope.content,hs.shadow (hps p hp)]
      rw [← ht]
      rfl
    simp only [Scope.assign,contains_iff_mem.mpr hp] at h
    split at h
    · rename_i hf
      obtain ⟨c,hc,h⟩ := ok_of_bind h
      obtain ⟨e,he,h⟩ := ok_of_bind h
      cases hc
      cases h
      obtain ⟨y,hrun⟩ := Cpu.run_loadFloatSlot (Scope.shadowOffset ⟨m,fr⟩ p) .fa0
      refine ⟨_,?_,hputFloat he hf hrun⟩
      rw [hsource,hfloat hf]
      exact congrArg some (Nat.mod_eq_of_lt s.fetch_lt).symm
    · obtain ⟨c,hc,h⟩ := ok_of_bind h
      obtain ⟨e,he,h⟩ := ok_of_bind h
      cases h
      obtain ⟨x,hrun,hx⟩ := Cpu.run_loadSlot hc (by decide) (by decide)
      exact ⟨_,by rw [hsource,hx],hput he hrun⟩
  · have hsource : Scope.source ⟨m,fr⟩ ps s v = Scope.bits ⟨m,fr⟩ s v := by
      cases v with
      | instr p => exact if_neg fun hp => hv ⟨p,hp,rfl⟩
      | _ => rfl
    have h' : (if (m.instr d).type.isFloat then do
        return (← Scope.loadFloat ⟨m,fr⟩ v .fa0) ++ (← Scope.storeFloat ⟨m,fr⟩ (.instr d) .fa0)
      else do return (← Scope.load ⟨m,fr⟩ v .a0) ++ (← Scope.store ⟨m,fr⟩ (.instr d) .a0)) =
        .ok code := by
      cases v with
      | instr p =>
        have hp : ps.contains p = false := by simp_all
        simpa only [Scope.assign,hp,Bool.false_eq_true,if_false] using h
      | _ => exact h
    split at h'
    · rename_i hf
      obtain ⟨c,hc,h'⟩ := ok_of_bind h'
      obtain ⟨e,he,h'⟩ := ok_of_bind h'
      cases h'
      obtain ⟨x,y,hrun,hbits⟩ := Scope.run_loadFloat hc
      exact ⟨_,hsource.trans (hbits (by rw [← hfloat hf,← ht])),hputFloat he hf hrun⟩
    · obtain ⟨c,hc,h'⟩ := ok_of_bind h'
      obtain ⟨e,he,h'⟩ := ok_of_bind h'
      cases h'
      obtain ⟨x,hrun,hbits⟩ := Scope.run_load hc (by decide) (by decide)
      rw [ht] at hbits
      exact ⟨_,hsource.trans hbits,hput he hrun⟩

end Settled
/-- Pieces of code run one after the other; what is known may depend on those that are left. -/
theorem run_mapM {α : Type} {g : α → Except Cause (List Inst)} {Q : List α → Cpu → Prop}
    (hg : ∀ a l s code, g a = .ok code → Q (a :: l) s → ∃ s', s.run code = some s' ∧ Q l s')
    {l : List α} {codes : List (List Inst)}
    {s : Cpu} (h : l.mapM g = .ok codes) (hs : Q l s) :
    ∃ s', s.run codes.flatten = some s' ∧ Q [] s' := by
  induction l generalizing codes s with
  | nil =>
    cases h
    exact ⟨s,rfl,hs⟩
  | cons a l ih =>
    rw [mapM_cons] at h
    obtain ⟨code,hcode,h⟩ := ok_of_bind h
    obtain ⟨rest,hrest,h⟩ := ok_of_bind h
    cases h
    obtain ⟨t,ht,hQ⟩ := hg a l s code hcode hs
    obtain ⟨u,hu,hQ⟩ := ih hrest hQ
    exact ⟨u,by rw [flatten_cons,Cpu.run_append,ht]; exact hu,hQ⟩

/-- The owners whose bytes may change when control leaves a block. -/
def Reassigned (m : Module) (b : BlockId) : Owner → Prop
  | .shadow _ => True
  | .value p => ∃ c ∈ m.succs b, p ∈ m.phis c ∧ (m.incomingFor? p b).isSome
  | _ => False

theorem reassigned_value {m : Module} {b : BlockId} {p : InstrId} {v : Operand}
    (h : (p,v) ∈ edgeCopies m b) : Reassigned m b (.value p) := by
  obtain ⟨c,hc,hp,hv⟩ := mem_edgeCopies.mp h
  exact ⟨c,hc,hp,by rw [hv]; rfl⟩

section
variable {m : Module} {f : FuncId} {fr : Frame} {b : BlockId} {s t : Cpu} {code : List Inst}
variable (hs : Settled m f fr) (htidy : Tidy m f) (hv : m.verify f = .ok ())
  (hb : b ∈ (m.func f).layout)
include hs htidy hv hb

theorem Settled.run_staging {codes : List (List Inst)}
    (h : (staged (edgeCopies m b)).mapM (Scope.stage ⟨m,fr⟩) = .ok codes) (s : Cpu) :
    ∃ t, s.run codes.flatten = some t ∧ Keeps ⟨m,fr⟩ (fun o => ∃ p, o = .shadow p) s t ∧
      ∀ p ∈ staged (edgeCopies m b), Scope.content ⟨m,fr⟩ t (.shadow p) =
        Scope.content ⟨m,fr⟩ s (.value p) := by
  refine (run_mapM (Q := fun l t => l ⊆ staged (edgeCopies m b) ∧
    Keeps ⟨m,fr⟩ (fun o => ∃ p, o = .shadow p) s t ∧
    ∀ p ∈ staged (edgeCopies m b), p ∈ l ∨ Scope.content ⟨m,fr⟩ t (.shadow p) =
      Scope.content ⟨m,fr⟩ s (.value p))
    (fun p l t code hcode hQ => ?_) h ⟨List.Subset.refl _,.refl,
      fun _ hp => .inl hp⟩).imp fun t ht =>
      ⟨ht.1,ht.2.2.1,fun p hp => (ht.2.2.2 p hp).resolve_left (by simp)⟩
  obtain ⟨hl,hk,hdone⟩ := hQ
  have hp : (Owner.shadow p).Of m f := ⟨b,hb,mem_staged.mp (hl (.head _))⟩
  obtain ⟨k,hk1,u,hu,hk',hk2⟩ := hs.delivers_stage hp (Owner.value_of_shadow htidy hv hp) hcode
  refine ⟨u,hu,fun _ h => hl (.tail _ h),hk.trans hk' fun o ho => ⟨p,ho⟩,fun q hq => ?_⟩
  by_cases hpq : q = p
  · subst q
    exact .inr (by rw [hk2,← hk1,hk.content hs (by simp)])
  · rw [hk'.content hs (by simpa using hpq)]
    grind

/-- Then each phi takes its value. A source that is not in its shadow is no phi that is assigned, or
is assigned to itself. -/
theorem Settled.run_assigning
    (htype : ∀ p v, (p,v) ∈ edgeCopies m b → m.typeOf v = (m.instr p).type)
    {codes : List (List Inst)}
    (h : ((edgeCopies m b).mapM fun c => Scope.assign ⟨m,fr⟩ (staged (edgeCopies m b)) c.1 c.2) =
      .ok codes) {s t : Cpu}
    (hk : Keeps ⟨m,fr⟩ (fun o => ∃ p, o = .shadow p) s t)
    (hstaged : ∀ p ∈ staged (edgeCopies m b), Scope.content ⟨m,fr⟩ t (.shadow p) =
      Scope.content ⟨m,fr⟩ s (.value p)) :
    ∃ u, t.run codes.flatten = some u ∧ Keeps ⟨m,fr⟩ (Reassigned m b) s u ∧
      ∀ p v, (p,v) ∈ edgeCopies m b → ∃ k, Scope.bits ⟨m,fr⟩ s v = some k ∧
        Scope.bits ⟨m,fr⟩ u (.instr p) = some k := by
  refine (run_mapM (Q := fun l t => l ⊆ edgeCopies m b ∧ Keeps ⟨m,fr⟩ (Reassigned m b) s t ∧
    (∀ p v, (p,v) ∈ edgeCopies m b → Scope.source ⟨m,fr⟩ (staged (edgeCopies m b)) t v =
      Scope.bits ⟨m,fr⟩ s v) ∧
    ∀ p v, (p,v) ∈ edgeCopies m b → (p,v) ∈ l ∨ ∃ k, Scope.bits ⟨m,fr⟩ s v = some k ∧
      Scope.bits ⟨m,fr⟩ t (.instr p) = some k)
    (fun c l t code hcode hQ => ?_) h ⟨List.Subset.refl _,
      Keeps.refl.trans hk (by rintro _ ⟨p,rfl⟩; trivial),fun p v _ => ?_,
      fun p v hc => .inl hc⟩).imp fun t ht =>
        ⟨ht.1,ht.2.2.1,fun p v hc => (ht.2.2.2.2 p v hc).resolve_left (by simp)⟩
  · obtain ⟨d,v⟩ := c
    obtain ⟨hl,hk,hsource,hdone⟩ := hQ
    have hc := hl (.head _)
    have hd : d ∈ m.instrs f := by
      obtain ⟨c,hc,hp,_⟩ := mem_edgeCopies.mp hc
      exact Module.mem_instrs_iff.mpr ⟨c,htidy.closed hv hb hc,m.phis_subset c hp⟩
    have hunique : ∀ w, (d,w) ∈ edgeCopies m b → w = v := by
      intro w hw
      obtain ⟨_,_,_,hw⟩ := mem_edgeCopies.mp hw
      obtain ⟨_,_,_,hv⟩ := mem_edgeCopies.mp hc
      exact Option.some.inj (hw.symm.trans hv)
    obtain ⟨k,hk1,u,hu,hk',hk2⟩ :=
      hs.delivers_assign (fun p hp => ⟨b,hb,mem_staged.mp hp⟩) hd (htype d v hc) hcode
    have hbefore : Scope.bits ⟨m,fr⟩ s v = some k := (hsource d v hc).symm.trans hk1
    have hkeeps : ∀ w, w ≠ .instr d → Scope.bits ⟨m,fr⟩ u w = Scope.bits ⟨m,fr⟩ t w := fun w hw =>
      hk'.bits hs (by simp) fun p hp h => hw (by rw [hp,Owner.value.inj h])
    refine ⟨u,hu,fun _ h => hl (.tail _ h),hk.trans hk' fun o ho => ho ▸ reassigned_value hc,
      fun p w hw => ?_,fun p w hw => ?_⟩
    · by_cases hself : w = .instr d
      · subst w
        by_cases hd' : d ∈ staged (edgeCopies m b)
        · rw [← hsource p _ hw]
          simp only [Scope.source,if_pos hd']
          exact hk'.content hs (by simp)
        · obtain rfl : p = d := by
            by_contra hne
            exact hd' (mem_staged.mpr ⟨⟨v,hc⟩,p,hne,hw⟩)
          rw [hunique _ hw,hbefore,← hunique _ hw]
          simp only [Scope.source,if_neg hd']
          exact hk2
      · rw [← hsource p w hw]
        cases w with
        | instr q =>
          simp only [Scope.source]
          split
          · exact hk'.content hs (by simp)
          · exact hkeeps _ hself
        | _ => exact hkeeps _ hself
    · by_cases hpd : p = d
      · subst p
        rw [hunique w hw]
        exact .inr ⟨k,hbefore,hk2⟩
      · grind
  · have hbits := hk.bits hs (v := v) (by simp) (by simp)
    cases v with
    | instr q =>
      simp only [Scope.source]
      split
      · exact hstaged q ‹_›
      · exact hbits
    | _ => exact hbits

end

/-- The phis of the blocks after `b` that have a value for it take these values all at once. Other
arguments, values and objects stay, and of the registers only those that values pass through change.
-/
theorem assignPhis_parallel {m : Module} {f : FuncId} (ht : Tidy m f) (hv : m.verify f = .ok ())
    (hm : Moderate m f) {fr : Frame} (hl : Frame.layout m f = .ok fr) {b : BlockId}
    (hb : b ∈ (m.func f).layout)
    (htype : ∀ c ∈ m.succs b, ∀ p ∈ m.phis c, ∀ v, m.incomingFor? p b = some v →
      m.typeOf v = (m.instr p).type) {code : List Inst}
    (hc : Scope.assignPhis ⟨m,fr⟩ b = .ok code) (s : Cpu) :
    ∃ s', s.run code = some s' ∧
      (∀ c ∈ m.succs b, ∀ p ∈ m.phis c, ∀ v, m.incomingFor? p b = some v →
        ∃ k, Scope.bits ⟨m,fr⟩ s v = some k ∧ Scope.bits ⟨m,fr⟩ s' (.instr p) = some k) ∧
      (∀ o, ¬ Reassigned m b o → Scope.content ⟨m,fr⟩ s' o = Scope.content ⟨m,fr⟩ s o) ∧
        Keeps ⟨m,fr⟩ (Reassigned m b) s s' := by
  have hs := hm.meets_layout ht hv
  rw [hl] at hs
  have htype : ∀ p v, (p,v) ∈ edgeCopies m b → m.typeOf v = (m.instr p).type := by
    intro p v h
    obtain ⟨c,hc,hp,hv⟩ := mem_edgeCopies.mp h
    exact htype c hc p hp v hv
  obtain ⟨first,hfirst,hc⟩ := ok_of_bind hc
  obtain ⟨second,hsecond,hc⟩ := ok_of_bind hc
  cases hc
  obtain ⟨t,hrun,hk,hstaged⟩ := Settled.run_staging hs ht hv hb hfirst s
  obtain ⟨u,hrun',hk',hdone⟩ := Settled.run_assigning hs ht hv hb htype hsecond hk hstaged
  exact ⟨u,by rw [Cpu.run_append,hrun]; exact hrun',
    fun c hc p hp v hv => hdone p v (mem_edgeCopies.mpr ⟨c,hc,hp,hv⟩),
    fun o ho => hk'.content hs ho,hk'⟩

theorem assignPhis_parallel_swapping : ∃ fr code, Frame.layout (swapping .i1) 0 = .ok fr ∧
    Scope.assignPhis ⟨swapping .i1,fr⟩ ⟨0,1⟩ = .ok code ∧ ∀ s :
    Cpu, ∃ s' j k, s.run code = some s' ∧
      Scope.bits ⟨swapping .i1,fr⟩ s (.instr 2) = some j ∧
      Scope.bits ⟨swapping .i1,fr⟩ s (.instr 4) = some k ∧
      Scope.bits ⟨swapping .i1,fr⟩ s' (.instr 2) = some k ∧
      Scope.bits ⟨swapping .i1,fr⟩ s' (.instr 4) = some j := by
  have hok : ((Frame.layout (swapping .i1) 0).toOption.any fun fr =>
      (Scope.assignPhis ⟨swapping .i1,fr⟩ ⟨0,1⟩).toOption.isSome) = true := by
    decide +kernel
  have htype : ∀ c ∈ (swapping .i1).succs ⟨0,1⟩, ∀ p ∈ (swapping .i1).phis c,
      ((swapping .i1).incomingFor? p ⟨0,1⟩).all fun v => (swapping .i1).typeOf v =
        ((swapping .i1).instr p).type := by
        decide
  cases hl : Frame.layout (swapping .i1) 0 with
  | error e => simp [hl,Except.toOption] at hok
  | ok fr =>
    cases hc : Scope.assignPhis ⟨swapping .i1,fr⟩ ⟨0,1⟩ with
    | error e => simp [hl,hc,Except.toOption] at hok
    | ok code =>
      refine ⟨fr,code,rfl,hc,fun s => ?_⟩
      obtain ⟨s',hrun,hbits,-⟩ :=
        assignPhis_parallel swapping_tidy rfl swapping_moderate hl (by decide)
        (fun c h p hp v hv => by simpa [hv] using htype c h p hp) hc s
      obtain ⟨k,hk,hk'⟩ := hbits ⟨0,1⟩ (by decide) 2 (by decide) (.instr 4) rfl
      obtain ⟨j,hj,hj'⟩ := hbits ⟨0,1⟩ (by decide) 4 (by decide) (.instr 2) rfl
      exact ⟨s',j,k,hrun,hj,hk,hk',hj'⟩

/-- With a phi of a negative size, the argument that another takes is overwritten by the value that
a third takes. -/
theorem negative_size_overwrites :
    let idle : Cpu := ⟨fun _ => 0,fun _ => 0,fun _ => 0,fun _ => 0⟩
    let m := swapping (.array (-1) .i32)
    m.verify 0 = .ok () ∧ m.incomingFor? 2 ⟨0,0⟩ = some (.arg 0 0) ∧
      ((Frame.layout m 0).toOption.bind fun fr =>
      (Scope.assignPhis ⟨m,fr⟩ ⟨0,0⟩).toOption.bind fun code => (idle.run code).map fun s =>
        (Scope.bits ⟨m,fr⟩ idle (.arg 0 0),Scope.bits ⟨m,fr⟩ s (.instr 2))) =
          some (some 0,some 7) := by
  decide +kernel

end CMinusF.Assembly
