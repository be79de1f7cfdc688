import CMinusF.Proofs.Lowering.Admissible
import CMinusF.Proofs.Purity.CallGraph
import CMinusF.Proofs.Purity.Promoted
import CMinusF.Proofs.Safety.Run

/-! Functions that are judged pure, in the code of accepted programs: a call of one may run where it
never ran before, unless it runs for ever. -/
namespace CMinusF
open Numeric List
variable {m : Module} {p : Operand} {f : FuncId} {e : BlockId} {i : InstrId}

theorem Module.StartsAt.not_isLocalObject {g : GlobalId} (h : m.StartsAt p (.global g)) :
    m.isLocalObject (m.memoryRoot p) = false := by
  have hroot : ∀ k, m.rootFrom k (.global g) = .global g := fun k => by cases k <;> rfl
  rcases h with rfl | ⟨j,z,z',rfl,hop,hops,-⟩
  · rw [memoryRoot]
    rfl
  · rw [memoryRoot,rootFrom]
    simp only [hop]
    rw [operand,hops,getD_cons_zero,hroot]
    rfl

/-- In a tame function whose calls lead to code, reads and writes that are harmless go to slots. -/
theorem Tame.isSlot (h : Tame m f e) (hi : i ∈ m.instrs f)
    (hcode : ∀ i ∈ m.instrs f, ∀ g, m.callee? i = some g → (m.func g).isDeclaration = false)
    (hh : m.harmless i = true) (hp : m.address? i = some p) : m.IsSlot p := by
  have hfence : ∀ b, ¬m.Fenced f b := by
    rintro b ⟨q,hq,-,j,hj,g,-,hg,hd⟩
    rw [hcode j (Module.mem_instrs_iff.mpr ⟨q,hq,hj⟩) g hg] at hd
    cases hd
  have hvar : m.IsVariable p := by
    obtain ⟨b,hb,hib⟩ := Module.mem_instrs_iff.mp hi
    rw [Module.address?] at hp
    split at hp
    · cases hp
      exact (h.load b hb i hib ‹_›).resolve_right (hfence b)
    · cases hp
      exact (h.store i hi ‹_›).resolve_right fun hb => hb.elim fun b hb => hfence b hb.2
    · cases hp
  obtain ⟨r,hs,⟨g,rfl⟩ | ⟨s,rfl,ha⟩⟩ := hvar
  · have hl := (Bool.and_eq_true_iff.mp hh).2
    rw [hp,Option.all_some,hs.not_isLocalObject] at hl
    cases hl
  · exact ⟨s,ha,hs⟩

def Module.AllTame (m : Module) : Prop :=
  ∀ f ∈ m.funcs, ∀ e, (m.func f).layout.head? = some e → Tame m f e

theorem Module.AllTame.containedAll (h : m.AllTame) (hr : m.AllReady) {P : FuncId → Prop}
    (hpure : ∀ f, P f → m.purity.isPure f = true) (hcalls : ∀ f g, P f → m.Calls f g → P g)
    (haffords : ∀ f, P f → m.Affords f) : ContainedAll m P := by
  intro f hf
  obtain ⟨hmem,hd,hharm,hcallee⟩ := Purity.isPure_spec (hpure f hf)
  obtain ⟨e,he⟩ := hr f hmem hd
  have ht := h f hmem e he.runnable.entry
  refine ⟨e,he.runnable,ht.known,fun i hi hop => ?_,fun i hi p hp => ?_,
    fun i hi g hg => hcalls f g hf ⟨i,hi,hg⟩,haffords f hf⟩
  · obtain ⟨c,k,hc,hk,hne⟩ :=
      Module.speculatable_iff.mp (Bool.and_eq_true_iff.mp (hharm i hi)).1 hop
    have hw := ht.literal i hi (by simp [hop]) c
      (Module.mem_operands_of_operand hc Operand.noConfusion) k hk
    exact ⟨c,k,hc,hk,by rwa [hw.wrap32]⟩
  · exact ht.isSlot hi (fun i hi g hg => (Purity.isPure_spec (hcallee i hi g hg)).2.1)
      (hharm i hi) hp

/-! Promotion. -/

section

theorem Module.AllReady.succs_run (h : m.AllReady) (hf : f ∈ m.funcs) (b : BlockId) :
    (Promotion.run m f (m.dominators f)).module.succs b = m.succs b := by
  by_cases hc : (m.func f).isDeclaration = true ∨ Promotion.candidates m f = []
  · rw [(run_of_no_candidates m f hc).1]
  · rw [not_or] at hc
    obtain ⟨e,he⟩ := h f hf (eq_false_of_ne_true hc.1)
    obtain ⟨names,D,start,finish,r,g,hfin,-⟩ := he.ready.finished hc.2
    exact (hfin.edges_eq b).1

theorem Module.AllTame.run (h : m.AllTame) (hr : m.AllReady) (hf : f ∈ m.funcs) :
    (Promotion.run m f (m.dominators f)).module.AllTame ∧ ∀ Q, ContainedAll m Q →
      (∀ f, Q f → f ∈ m.funcs) →
      ContainedAll (Promotion.run m f (m.dominators f)).module Q := by
  obtain ⟨hall,hr',-,hfuncs⟩ := hr.run hf
  have hsuccs := hr.succs_run hf
  generalize (Promotion.run m f (m.dominators f)).module = n at *
  have defined : ∀ g ∈ m.funcs, ∀ e, (m.func g).layout.head? = some e → Runnable m g e ∧
      ∃ P, Promotes m n g e P := by
    intro g hg e he
    have hd : (m.func g).isDeclaration = false := by
      rw [Func.isDeclaration,isEmpty_eq_false_iff]
      rintro hnil
      rw [hnil] at he
      cases he
    obtain ⟨e',P,hR,hP⟩ := hall.defined g hg hd
    cases hR.entry.symm.trans he
    exact ⟨hR,P,hP⟩
  constructor
  · intro g hg e he
    rw [hfuncs] at hg
    rw [hall.layout g hg] at he
    obtain ⟨hR,P,hP⟩ := defined g hg e he
    exact hP.tame hR.toFormed (h g hg e he) hsuccs hfuncs hall.layout
  · intro Q hQ hmem g hg
    obtain ⟨e,hc⟩ := hQ g hg
    have hgm := hmem g hg
    obtain ⟨hR,P,hP⟩ := defined g hgm e hc.entry
    have hd' : (n.func g).isDeclaration = false := by
      rw [Func.isDeclaration,hall.layout g hgm]
      exact hc.isDeclaration
    obtain ⟨e',he'⟩ := hr' g (hfuncs ▸ hgm) hd'
    have hee : e' = e := by
      have := he'.runnable.entry
      rw [hall.layout g hgm,hc.entry] at this
      exact (Option.some.inj this).symm
    exact ⟨e,hP.contained hc (h g hgm e hc.entry).reached (hee ▸ he'.runnable)⟩

theorem Module.AllTame.promoted (h : m.AllTame) (hr : m.AllReady) {fs : List FuncId}
    (hfs : ∀ f ∈ fs, f ∈ m.funcs) :
    (m.promoted fs).AllTame ∧ (m.promoted fs).AllReady ∧ (m.promoted fs).funcs = m.funcs ∧
      ∀ Q, ContainedAll m Q → (∀ f, Q f → f ∈ m.funcs) → ContainedAll (m.promoted fs) Q := by
  induction fs generalizing m with
  | nil => exact ⟨h,hr,rfl,fun _ hQ _ => hQ⟩
  | cons f fs ih =>
    have hf := hfs f mem_cons_self
    obtain ⟨-,hr',-,hfuncs⟩ := hr.run hf
    obtain ⟨h',hQ'⟩ := h.run hr hf
    obtain ⟨h1,h2,h3,h4⟩ := ih h' hr' fun g hg => hfuncs ▸ hfs g (mem_cons_of_mem _ hg)
    exact ⟨h1,h2,h3.trans hfuncs,fun Q hQ hmem => h4 Q (hQ' Q hQ hmem) fun g hg =>
      hfuncs ▸ hmem g hg⟩

end

/-! Lowered code. -/
namespace Lowering
variable {L : Law} {ns : Notes} {b c : BlockId} {n : InstrId} {v : Operand} {t : Ty}

/-- An operand that is an integer is one of the program's. -/
def Lawful (L : Law) (m : Module) (v : Operand) : Prop :=
  ∀ c, v = .literal c → ∀ k, m.code.literal c = .int k → L.literal k

theorem lawful_of_ne (h : ∀ c, v ≠ .literal c) : Lawful L m v := fun c hc => absurd hc (h c)

theorem Has.lawful (h : Has L m ns b n v t) : Lawful L m v := by
  rintro c rfl k hk
  cases h with
  | int _ hv hl => exact Constant.int.inj (hv.symm.trans hk) ▸ hl
  | float _ hv => cases hv.symm.trans hk

theorem IsZero.lawful (h : IsZero m v) : Lawful L m v := by
  rintro c rfl k hk
  obtain ⟨c,hc,-,hz⟩ := h
  cases hc
  exact Constant.int.inj (hz.symm.trans hk) ▸ L.zero

theorem Place.lawful (h : Place m n f v t) : Lawful L m v := by
  cases h <;> exact lawful_of_ne fun _ => Operand.noConfusion

theorem Passes.lawful (h : Passes L m ns b n v t) : Lawful L m v := by
  cases h with
  | value hv => exact hv.lawful
  | array hv => exact hv.lawful

theorem Fits.lawful {op : Opcode} {object : Option Ty} {vs : List Operand}
    (h : Fits L m ns b n op t object vs) :
    ∀ v ∈ vs, Lawful L m v := by
  have other {v : Operand} (h : ∀ c, v ≠ .literal c) : Lawful L m v := lawful_of_ne h
  cases h with
  | int hx hy => simpa using ⟨hx.lawful,hy.lawful⟩
  | float hx hy => simpa using ⟨hx.lawful,hy.lawful⟩
  | icmp hx hy => simpa using ⟨hx.lawful,hy.lawful⟩
  | fcmp hx hy => simpa using ⟨hx.lawful,hy.lawful⟩
  | zext hx => simpa using hx.lawful
  | fptosi hx => simpa using hx.lawful
  | sitofp hx => simpa using hx.lawful
  | alloca => exact fun _ h => absurd h not_mem_nil
  | loadVariable hp => simpa using hp.lawful
  | loadReference hp => simpa using hp.lawful
  | loadElement hp => simpa using hp.lawful
  | storeVariable hv hp => simpa using ⟨hv.lawful,hp.lawful⟩
  | storeParam _ _ hp => simpa using ⟨other fun _ => Operand.noConfusion,hp.lawful⟩
  | storeElement hv hp => simpa using ⟨hv.lawful,hp.lawful⟩
  | gepElement hp hz hv => simpa using ⟨hp.lawful,hz.lawful,hv.lawful⟩
  | gepFirst hp hz hz' => simpa using ⟨hp.lawful,hz.lawful,hz'.lawful⟩
  | gepOffset hp _ hv => simpa using ⟨hp.lawful,hv.lawful⟩
  | call _ hvs =>
    refine forall_mem_cons.mpr ⟨other fun _ => Operand.noConfusion,fun v hv => ?_⟩
    obtain ⟨t,ht⟩ := exists_of_forall₂ hvs hv
    exact ht.lawful
  | retNone => exact fun _ h => absurd h not_mem_nil
  | ret _ hv => simpa using hv.lawful
  | retVoid => exact forall_mem_singleton.mpr (other fun _ => Operand.noConfusion)
  | br => exact forall_mem_singleton.mpr (other fun _ => Operand.noConfusion)
  | condBr hv =>
    simpa using ⟨hv.lawful,other fun _ => Operand.noConfusion,other fun _ => Operand.noConfusion⟩

theorem Place.isVariable (h : Place m n f v t) : m.IsVariable v := by
  cases h with
  | global => exact ⟨_,.inl rfl,.inl ⟨_,rfl⟩⟩
  | slot _ _ ho => exact ⟨_,.inl rfl,.inr ⟨_,rfl,ho⟩⟩

theorem Place.isObject (h : Place m n f v t) : m.IsObject v := by
  cases h with
  | global => exact .inl ⟨_,rfl⟩
  | slot _ _ ho => exact .inr ⟨_,rfl,ho⟩

/-- A block that reports a negative index calls a function without code. -/
theorem Built.fenced (hm : Built L m ns) (h : Guarded m ns b n) (hn : n ≤ m.instrTable.size) :
    m.Fenced b.func b := by
  obtain ⟨t,ht,q,hq,hp,htb,hrole⟩ := h
  have hlt := ht.trans_le hn
  have hsucc : b ∈ m.succs q := (hm.charted.succs q b).mpr ⟨t,(hm.listed_of_parent hlt hp).2,htb⟩
  have hqf : q.func = b.func := ((hm.edge hsucc).2.func).symm
  obtain ⟨hbr,-⟩ := Module.mem_targets.mp htb
  rcases hm.report t hlt q hp hrole with ⟨hcall,-⟩ | ⟨j,hj,hjp,hop,g,hops,hg,hlay,-⟩
  · rw [m.op_eq_code,hcall] at hbr
    cases hbr
  · refine ⟨q,hqf ▸ hq,hsucc,j,(hm.listed_of_parent (Nat.lt_trans hj hlt) hjp).2,g,?_,?_,?_⟩
    · rw [hm.funcs]
      exact mem_range.mpr hg
    · rw [Module.callee?,m.op_eq_code,hop,m.operands_eq_code,hops]
    · rw [Func.isDeclaration,hlay]
      rfl

/-- The address of an element: the index was checked in the block, or it is the first one. -/
theorem Built.element (hm : Built L m ns) {j : InstrId} (hj : j < m.instrTable.size)
    (hp : (m.code.instr j).parent = some b) (ho : (m.code.instr j).op = .gep) :
    m.IsVariable (.instr j) ∨ m.Fenced b.func b := by
  have hx := hm.fits j hj b hp
  rw [FitsAt] at hx
  generalize hops : (m.code.instr j).operands = vs at hx
  generalize (m.code.instr j).object = object at hx
  generalize (m.code.instr j).type = ty at hx
  rw [ho] at hx
  cases hx with
  | gepElement _ _ _ _ _ hg => exact .inr (hm.fenced hg (Nat.le_of_lt hj))
  | gepOffset _ _ _ _ _ hg => exact .inr (hm.fenced hg (Nat.le_of_lt hj))
  | gepFirst hpl hz hz' =>
    obtain ⟨c,rfl,-,hc⟩ := hz'
    exact .inl ⟨_,.inr ⟨j,_,_,rfl,ho,hops,c,rfl,hc⟩,hpl.isObject⟩

theorem Built.tame (hm : Built L m ns) (hL : ∀ k, L.literal k → IsWord k) (hc : Canonical m f e) :
    Tame m f e where
  reached := hc.reached
  known i hi k ho := by
    obtain ⟨b,-,-,-,hx⟩ := hm.fits_of_mem hi
    rw [FitsAt,← m.op_eq_code,ho] at hx
    cases hx
  literal i hi _ c hc k hk := by
    obtain ⟨b,-,-,-,hx⟩ := hm.fits_of_mem hi
    exact hL k (hx.lawful _ hc c rfl k hk)
  load b hb i hib hop := by
    obtain ⟨hlt,hp⟩ := hm.member b i hib
    have hx := hm.fits i hlt b hp
    have hbf := (hm.func_of_mem_layout hb).1
    rw [m.op_eq_code] at hop
    rw [FitsAt,hop] at hx
    generalize (m.code.instr i).object = object at hx
    generalize (m.code.instr i).type = ty at hx
    rw [Module.operand,m.operands_eq_code]
    generalize (m.code.instr i).operands = vs at hx
    cases hx with
    | loadVariable hpl => exact .inl hpl.isVariable
    | loadReference hpl => exact .inl hpl.isVariable
    | loadElement hj ho hjb =>
      cases hj with
      | instr hj => exact hbf ▸ hm.element (Nat.lt_trans hj hlt) hjb ho
  store i hi hop := by
    obtain ⟨b,hbf,hl,hib,hx⟩ := hm.fits_of_mem hi
    have hlt := (hm.member b i hib).1
    rw [m.op_eq_code] at hop
    rw [FitsAt,hop] at hx
    generalize (m.code.instr i).object = object at hx
    generalize (m.code.instr i).type = ty at hx
    rw [Module.operand,m.operands_eq_code]
    generalize (m.code.instr i).operands = vs at hx
    cases hx with
    | storeVariable _ hpl => exact .inl hpl.isVariable
    | storeParam _ _ hpl => exact .inl hpl.isVariable
    | storeElement _ hj ho =>
      cases hj with
      | instr hj hjp ha =>
        have hjs := Nat.lt_trans hj hlt
        have hcf := (hm.func_of_above ha hl).1.trans hbf
        exact (hm.element hjs hjp ho).imp_right fun h =>
          ⟨_,hcf ▸ (hm.listed_of_parent hjs hjp).1,hcf ▸ h⟩

end Lowering

theorem ofSource_allTame {name source : String} (h : Module.ofSource name source = .ok m) :
    m.AllTame := by
  obtain ⟨p,hparse,hl⟩ := Module.ofSource_eq_ok h
  obtain ⟨ns,xs,d,hs,rfl⟩ :=
    Lowering.sound_of_lower (fun _ _ => trivial) (Safety.declares_sourceLaw hparse) hl
  intro f hf e he
  have hne : (d.module.func f).layout ≠ [] := fun hnil => by simp [hnil] at he
  have hc := Lowering.canonical_of_sound hs hf hne
  cases he.symm.trans hc.entry
  exact hs.built.tame (fun _ hk => Safety.isWord_of_isLiteral hk) hc

/-- A call of a function that was judged pure, before or after locals have been promoted, and that
calls no function with an object that is too long: it spends every budget, or it returns a value on
every budget from some number on. It never faults, and leaves every object there was, the output and
the input as they were. -/
theorem pure_call {name source : String} {m : Module} (h : Module.ofSource name source = .ok m)
    (hv : ∀ f ∈ m.funcs, m.verify f = .ok ()) {fs gs : List FuncId}
    (hfs : ∀ f ∈ fs, f ∈ m.funcs) (hgs : ∀ g ∈ gs, g ∈ m.funcs) {f : FuncId}
    (hf : (m.promoted fs).purity.isPure f = true)
    (hlen : ∀ g, Relation.ReflTransGen (m.promoted fs).Calls f g → (m.promoted fs).Affords g)
    (w : World) (args : List Datum) :
    let m' := (m.promoted fs).promoted gs
    (∀ n, Spent ((⟨n,w⟩ : Machine).callFunc m' f args).2) ∨
      ∃ k v w₁, w.Keeps w.heap.size w₁ ∧ ∀ n, if k ≤ n then (⟨n,w⟩ : Machine).callFunc m' f args =
        (⟨n - k,w₁⟩,.ok v)
        else Spent ((⟨n,w⟩ : Machine).callFunc m' f args).2 := by
  intro m'
  obtain ⟨htame,hready,hfuncs,-⟩ :=
    (ofSource_allTame h).promoted (ofSource_admissible h hv).allReady hfs
  obtain ⟨-,-,-,hpure⟩ := htame.promoted hready fun g hg => hfuncs ▸ hgs g hg
  have hreach := fun g => Module.isPure_of_calls (m := m.promoted fs) (g := g) hf
  have hall := hpure _ (htame.containedAll hready hreach (fun _ _ => .tail) hlen)
    fun g hg => (Purity.isPure_spec (hreach g hg)).1
  exact hall.callFunc .refl w args

/-- A function that is pure only once the local it divides by is known. -/
theorem pure_call_half :
    let source := "int half(int x) { int y; y = 2; return x / y; }"
    ∃ m f, Module.ofSource "half" source = .ok m ∧ (∀ f ∈ m.funcs, m.verify f = .ok ()) ∧
      f ∈ m.funcs ∧ m.purity.isPure f = false ∧
      (m.promoted [f]).purity.isPure f = true ∧
      (∀ g, Relation.ReflTransGen (m.promoted [f]).Calls f g →
        (m.promoted [f]).Affords g) ∧ ∀ w args,
        (∀ n, Spent ((⟨n,w⟩ : Machine).callFunc (m.promoted [f]) f args).2) ∨
          ∃ k v w₁, w.Keeps w.heap.size w₁ ∧ ∀ n, if k ≤ n
            then (⟨n,w⟩ : Machine).callFunc (m.promoted [f]) f args = (⟨n - k,w₁⟩,.ok v)
            else Spent ((⟨n,w⟩ : Machine).callFunc (m.promoted [f]) f args).2 := by
  intro source
  obtain ⟨m,hm,hc⟩ := Module.exists_ofSource "half" source
    (fun m => m.funcs.all (fun f => (m.funcDefect? f).isNone) &&
    (m.func? "half").any fun f => !m.purity.isPure f && ((m.promoted [f]).purity.isPure f &&
      (Purity.callees (m.promoted [f]) f = [] ∧ (m.promoted [f]).Affords f))) (by decide +kernel)
  obtain ⟨hv,hpure⟩ := Bool.and_eq_true_iff.mp hc
  obtain ⟨f,hf,hp⟩ := (Option.any_eq_true _ _).mp hpure
  obtain ⟨hp,hp'⟩ := Bool.and_eq_true_iff.mp hp
  obtain ⟨hp',halone⟩ := Bool.and_eq_true_iff.mp hp'
  obtain ⟨hcallees,hlen⟩ := of_decide_eq_true halone
  have hlen : ∀ g, Relation.ReflTransGen (m.promoted [f]).Calls f g →
      (m.promoted [f]).Affords g := by
    intro g hg
    rcases hg.cases_head with rfl | ⟨c,⟨i,hi,hc⟩,-⟩
    · exact hlen
    · have hmem : c ∈ Purity.callees (m.promoted [f]) f := mem_filterMap.mpr ⟨i,hi,hc⟩
      rw [hcallees] at hmem
      exact absurd hmem not_mem_nil
  have hv : ∀ f ∈ m.funcs, m.verify f = .ok () := fun f hf =>
    Module.verify_eq_ok_iff.mpr (Option.isNone_iff_eq_none.mp (List.all_eq_true.mp hv f hf))
  have hmem : f ∈ m.funcs := List.mem_of_find?_eq_some hf
  exact ⟨m,f,hm,hv,hmem,by simpa using hp,hp',hlen,fun w args =>
    @pure_call _ _ _ hm hv [f] [] (List.forall_mem_singleton.mpr hmem)
      (fun _ h => absurd h List.not_mem_nil) f hp' hlen w args⟩

theorem Run.not_ends_of_recursion {r : List InstrId}
    (he : (m.func f).entryBlock? = some e) (hb : m.body e = i :: r) (hc : m.callee? i = some f)
    {w w1 : World} {args : List Datum} {k : Nat} {x : Except Fault Datum} :
    ¬Ends m w (activation m w.globals f args) k w1 x := by
  have hd : (m.func f).isDeclaration = false := by
    rw [Func.isDeclaration,isEmpty_eq_false_iff]
    rintro hnil
    rw [Func.entryBlock?,hnil] at he
    cases he
  have hrest : ∀ w args, (activation m w f args).rest = i :: r := fun w args => by
    rw [activation,he]
    exact hb
  -- whatever is first in line is the call
  have hact : ∀ {w a g args j js x}, activation m g f args = a → a.rest = j :: js →
    action m w a j = x →
      ∃ args, x = .call (countCall w (m.func f).name) (activation m w.globals f args) := by
    rintro w a g args j js x rfl hr rfl
    rw [hrest] at hr
    cases hr
    rw [action_call (Module.op_of_callee? hc),hc]
    simp only [hd]
    exact ⟨_,rfl⟩
  intro hx
  generalize ha : activation m w.globals f args = a at hx
  induction hx generalizing args with
  | stuck hr =>
    rw [← ha,hrest] at hr
    cases hr
  | done hr h | fault hr h | go hr h =>
    obtain ⟨_,h'⟩ := hact ha hr h
    cases h'
  | call hr h _ _ ih | callFault hr h _ ih =>
    obtain ⟨_,h'⟩ := hact ha hr h
    cases h'
    exact ih rfl

/-- A call of a pure function need not return. -/
theorem endless_pure_call :
    let source := "int f(void) { return f(); }"
    ∃ m f, Module.ofSource "endless" source = .ok m ∧ (∀ f ∈ m.funcs, m.verify f = .ok ()) ∧
      m.purity.isPure f = true ∧
      ∀ n w args, Spent ((⟨n,w⟩ : Machine).callFunc m f args).2 := by
  intro source
  obtain ⟨m,hm,hc⟩ := Module.exists_ofSource "endless" source
    (fun m => m.funcs.all (fun f => (m.funcDefect? f).isNone) &&
    (m.func? "f").any fun f => m.purity.isPure f &&
      (m.func f).entryBlock?.any fun e => (m.body e).head?.any fun i => m.callee? i = some f)
    (by decide +kernel)
  obtain ⟨hv,hpure⟩ := Bool.and_eq_true_iff.mp hc
  obtain ⟨f,-,hp⟩ := (Option.any_eq_true _ _).mp hpure
  obtain ⟨hp,hcall⟩ := Bool.and_eq_true_iff.mp hp
  obtain ⟨e,he,hcall⟩ := (Option.any_eq_true _ _).mp hcall
  obtain ⟨i,hi,hcall⟩ := (Option.any_eq_true _ _).mp hcall
  obtain ⟨r,hb⟩ : ∃ r, m.body e = i :: r := by
    cases hb : m.body e with
    | nil =>
      rw [hb] at hi
      cases hi
    | cons j r =>
      rw [hb] at hi
      cases hi
      exact ⟨r,rfl⟩
  refine ⟨m,f,hm,fun f hf => Module.verify_eq_ok_iff.mpr
    (Option.isNone_iff_eq_none.mp (List.all_eq_true.mp hv f hf)),hp,fun n w args => ?_⟩
  by_contra hs
  obtain ⟨_,_,_,_,hx⟩ := callEnds_of_not_spent hs
  cases hx with
  | builtin hd => exact absurd (hd.symm.trans (Purity.isPure_spec hp).2.1) Bool.noConfusion
  | code _ hx =>
    exact Run.not_ends_of_recursion (w := Run.countCall w (m.func f).name) he hb
      (of_decide_eq_true hcall) hx

end CMinusF
