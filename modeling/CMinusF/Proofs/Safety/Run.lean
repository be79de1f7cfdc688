import CMinusF.Proofs.Machine.Trace
import CMinusF.Proofs.Safety.Step
import CMinusF.Proofs.Syntax.Integers

/-! Accepted programs do not go wrong. -/
namespace CMinusF
open Lowering Numeric List
namespace Safety
variable {L : Law} {m : Module} {ns : Notes} {slots : Nat → Prop} {s s₀ : Run.Trace}
  {i : InstrId} {w : World} {f : FuncId}

structure Steady (m : Module) (ns : Notes) (slots : Nat → Prop) (s : Run.Trace) : Prop where
  memory : Memory s.state.world.heap slots
  globals : HasGlobals m s.state.world.globals s.state.world.heap slots
  frames : List.Forall₂ (fun a l => ∃ pre,
    Frame m ns s.state.world.globals s.state.world.heap slots a pre l)
    (s.state.active :: s.state.callers) s.executed
  callers : ∀ c ∈ s.state.callers, Waits m c

section
variable {t : Run.Trace}

theorem Steady.poised (hs : Steady m ns slots s) (hm : Whole L m ns) :
    ∃ l ls pre i r, s.executed = l :: ls ∧
      Poised L m ns slots s.state.world s.state.active pre l i r ∧
      List.Forall₂ (fun a l => ∃ pre, Frame m ns s.state.world.globals s.state.world.heap slots a
        pre l) s.state.callers ls := by
  have hfr := hs.frames
  cases hl : s.executed with
  | nil =>
    rw [hl] at hfr
    cases hfr
  | cons l ls =>
    rw [hl] at hfr
    cases hfr with
    | cons hf hcs =>
      obtain ⟨pre,hf⟩ := hf
      cases hr : s.state.active.rest with
      | nil => exact absurd hr hf.rest
      | cons i r => exact ⟨l,ls,pre,i,r,rfl,⟨hf,hm,hs.memory,hs.globals,hr⟩,hcs⟩

theorem Steady.next (hs : Steady m ns slots s) (hm : Whole L m ns)
    (hn : s.next? m = some t) : ∃ slots', Steady m ns slots' t := by
  obtain ⟨l,ls,pre,i,r,hl,hp,hcs⟩ := hs.poised hm
  obtain ⟨⟨w,a,cs⟩,executed⟩ := s
  subst hl
  have hacts := hp.acts
  cases Run.follows_of_next? hp.rest hcs.length_eq.symm hn with
  | @go w' a' ha =>
    rw [ha] at hacts
    obtain ⟨slots',pre',hmem,hlater,hg,hf⟩ := hacts
    refine ⟨slots',hmem,?_,?_,hs.callers⟩
    · rw [hg]
      exact hp.globals.later hlater
    · rw [hg]
      exact .cons ⟨pre',hf⟩ (hcs.imp fun _ _ hx => hx.imp fun _ hx => hx.later hlater)
  | @call w' c ha =>
    rw [ha] at hacts
    obtain ⟨hh,hg,hf,hw⟩ := hacts
    refine ⟨slots,hh ▸ hp.memory,?_,?_,forall_mem_cons.mpr ⟨hw,hs.callers⟩⟩
    · rw [hg,hh]
      exact hp.globals
    · rw [hg,hh]
      exact .cons ⟨[],hf⟩ (.cons ⟨pre,hp.frame⟩ hcs)
  | @back v c cs' l' ls' ha hc hl =>
    rw [ha] at hacts
    subst hc hl
    cases hcs with
    | cons hfc hcs =>
      obtain ⟨pre',hfc⟩ := hfc
      obtain ⟨⟨j,r',g,vs,hr',ho,hv,hlay⟩,hcallers⟩ := forall_mem_cons.mp hs.callers
      have hlisted := hm.member _ j (hfc.mem hr')
      refine ⟨slots,hp.memory,hp.globals,.cons ⟨pre' ++ [j],?_⟩ hcs,hcallers⟩
      rw [hr']
      have hfits := hm.fits j hlisted.1 _ hlisted.2
      refine hfc.advance hm hr' (by rw [m.op_eq_code,ho]; rfl)
        (.of_word ⟨ho,rfl,rfl⟩ Opcode.noConfusion (hfits.call_type hm.toLaid ho) hacts)
          (fun _ _ _ hst => ?_) (fun _ _ _ hcmp => ?_) fun _ hrep => ?_
      · cases ho.symm.trans hst
      · cases ho.symm.trans hcmp
      · -- the function that reports a negative index has no code
        obtain ⟨-,g',hvs,-,hl',-⟩ := hrep
        cases hv.symm.trans hvs
        exact hlay hl'

end

/-- The instructions whose values an instruction reads: those it names, and those the phis it leads
to name. -/
def reads (m : Module) (i : InstrId) : List InstrId :=
  ((i :: (m.targets i).flatMap m.phis).flatMap m.operands).filterMap fun
    | .instr j => some j
    | _ => none

/-- A state in which nothing has gone wrong: a value is computed before it is read, numbers fit in
32 bits and conditions are 0 or 1, and there is a cell at the address of a variable. -/
structure Proper (m : Module) (s : Run.Trace) : Prop where
  assigned : ∀ i ∈ s.state.active.rest.head?, ∀ j ∈ reads m i, (m.instr j).type.isVoid = false ∧
    j ∈ s.executed.headD []
  word : ∀ a ∈ s.state.active :: s.state.callers, ∀ i, (m.instr i).type = .i32 →
    IsWord (a.registers.get i).int
  bit : ∀ a ∈ s.state.active :: s.state.callers, ∀ i, (m.instr i).type = .i1 →
    (a.registers.get i).int = 0 ∨ (a.registers.get i).int = 1
  argument : ∀ a ∈ s.state.active :: s.state.callers, ∀ v ∈ a.args, IsWord v.int
  memory : ∀ o j, IsWord ((s.state.world.heap.get o).cells.get j).int
  cell : ∀ i ∈ s.state.active.rest.head?, ∀ p, Accesses m i p →
    (∀ j, p = .instr j → (m.instr j).op ≠ .gep) →
    (s.state.world.heap.cell? (s.state.active.eval m s.state.world.globals p).address).isSome

theorem not_void_of_verify (hm : Laid L m ns) (hv : ∀ f ∈ m.funcs, m.verify f = .ok ())
    {b : BlockId} (hb : m.Listed b) {j : InstrId} (hi : i ∈ (m.block b).instrs)
    (hj : .instr j ∈ m.operands i) :
    (m.code.instr j).type.isVoid = false := by
  have hf : b.func ∈ m.funcs := by
    rw [hm.funcs]
    exact mem_range.mpr (hm.func_lt hb)
  obtain ⟨pre,post,hsplit⟩ := append_of_mem hi
  have hop := ((Module.blockChecked (hv _ hf) hb).instr pre i post hsplit).operand _ hj
  simp only [Module.operandDefect?] at hop
  split at hop
  · cases hop
  split at hop
  · cases hop
  · rename_i hvoid
    exact eq_false_of_ne_true hvoid

section

theorem Steady.proper (hs : Steady m ns slots s) (hm : Whole L m ns)
    (hv : ∀ f ∈ m.funcs, m.verify f = .ok ()) : Proper m s := by
  obtain ⟨l,ls,pre,i,r,hl,hp,hcs⟩ := hs.poised hm
  have hhead : ∀ k ∈ s.state.active.rest.head?, k = i := by
    intro k hk
    rw [hp.rest] at hk
    exact (Option.some.inj hk).symm
  have hframe : ∀ a ∈ s.state.active :: s.state.callers, ∃ l pre,
      Frame m ns s.state.world.globals s.state.world.heap slots a pre l := by
    intro a ha
    obtain ⟨l,pre,hf⟩ := exists_of_forall₂ hs.frames ha
    exact ⟨l,pre,hf⟩
  constructor
  case assigned =>
    intro k hk j hj
    cases hhead k hk
    have hmem := hp.frame.mem hp.rest
    obtain ⟨hlt,hpar⟩ := hm.member _ i hmem
    have hphis : (m.targets i).flatMap m.phis = [] :=
      flatMap_eq_nil_iff.mpr fun b _ => Frame.phis_eq_nil hm.toLaid b
    rw [reads,hphis,flatMap_singleton] at hj
    obtain ⟨v,hvi,hvj⟩ := mem_filterMap.mp hj
    have hread := (hm.fits i hlt _ hpar).readable hm.toLaid hp.frame.listed v hvi
    cases v <;> simp only [reduceCtorEq,Option.some.injEq] at hvj
    subst hvj
    obtain ⟨hj,-,c,hc,ha⟩ := hread
    refine ⟨not_void_of_verify hm.toLaid hv hp.frame.listed hmem hvi,?_⟩
    rw [hl]
    refine hp.frame.executed hm hp.rest (fun ho => ?_) hj hc ha
    have hnil := (hm.fits i hlt _ hpar).alloca_operands ho
    rw [show m.operands i = [] from hnil] at hvi
    cases hvi
  case word =>
    intro a ha k _
    obtain ⟨l,pre,hf⟩ := hframe a ha
    exact hf.word k
  case bit =>
    intro a ha k hk
    obtain ⟨l,pre,hf⟩ := hframe a ha
    exact hf.bit k hk
  case argument =>
    intro a ha v hv
    obtain ⟨l,pre,hf⟩ := hframe a ha
    obtain ⟨k,hk⟩ := mem_iff_getElem?.mp hv
    have := hf.argWord k
    rwa [getD_eq_getElem?_getD,hk] at this
  case memory => exact hs.memory.word
  case cell =>
    intro k hk p hx hj
    cases hhead k hk
    exact hp.cell? hx hj

end

/-! Machines. -/

theorem memory_empty : Memory (.empty : Heap) fun _ => False where
  word o j := by
    rw [show (Table.empty : Heap).get o = default from Table.get_empty o]
    exact isWord_zero
  length o ho := absurd ho (Nat.not_lt_zero o)
  slots_lt _ h := h.elim
  held _ h := h.elim

theorem new_memory (hm : Laid L m ns) {input : String} {n : Nat} {mc : Machine}
    (hmc : Machine.new m .empty input n = some mc) :
    Memory mc.world.heap (fun _ => False) ∧
      HasGlobals m mc.world.globals mc.world.heap fun _ => False := by
  obtain ⟨s,hs,rfl⟩ := Option.map_eq_some_iff.mp hmc
  -- all but the globals still to be made have objects of their own
  have h := Machine.foldlM_addGlobal (P := fun gs (s : Heap × Table (Option Nat)) =>
    Memory s.1 (fun _ => False) ∧ ∀ g ∈ m.globals, g ∈ gs ∨
      Variable s.1 (fun _ => False) False ⟨s.2.get g,0⟩) ?_ ⟨memory_empty,fun _ => .inl⟩ hs
  · refine ⟨h.1,fun g hg => (h.2 g ?_).resolve_left not_mem_nil⟩
    rw [hm.globals]
    exact mem_range.mpr hg
  · rintro g gs ⟨h,t⟩ ⟨hm,hall⟩
    obtain ⟨hm',hl,hv⟩ := hm.extend (m.global g).contents.length False
    have hslots : (fun o => False ∨ o = h.size ∧ False) = fun _ => False := by simp
    rw [hslots] at hm' hl hv
    refine ⟨hm',fun g' hg' => ?_⟩
    by_cases he : g' = g
    · subst he
      right
      rw [Table.get_set,if_pos rfl]
      exact hv
    · rcases hall g' hg' with hmem | hvar
      · exact .inl ((mem_cons.mp hmem).resolve_left he)
      · right
        rw [Table.get_set,if_neg (Ne.symm he)]
        exact hvar.later hl

/-! Programs. -/

def sourceLaw : Law where
  literal := Reader.IsLiteral
  zero := ⟨Int.le_refl 0,by decide⟩
  voidName _ := True
  voidReturn := True

theorem isWord_of_isLiteral {k : Int} (h : Reader.IsLiteral k) : IsWord k :=
  ⟨Int.le_trans (by decide) h.1,h.2⟩

theorem declares_sourceLaw {file source : String} {p : Program}
    (h : Program.parse file source = .ok p) :
    ∀ x ∈ p.decls, sourceLaw.declares x := by
  intro x hx
  cases x with
  | «variable» d => trivial
  | function d =>
    exact ⟨Stmt.allObey_mono (fun _ he => he) (fun _ _ _ _ _ _ _ => trivial) d.body
      (Program.literals_of_parse h d hx),fun _ => trivial⟩

/-- How the run that starts in `s₀` may end: with a value, out of budget, or with one of the faults
that a program can cause, memory being exceeded only by an index that is too large. -/
def EndsWell (m : Module) (s₀ : Run.Trace) : Except RunError Int → Prop
  | .ok _ => True
  | .error (.fault _ .outOfBounds) =>
    ∃ s i, Run.Reaches m s₀ s ∧ s.state.active.rest.head? = some i ∧
      Beyond m s.state.world s.state.active i
  | .error (.fault _ e) =>
    e = .stepLimit ∨ e = .divideByZero ∨ e = .negativeIndex ∨ ∃ x, e = .input x
  | .error _ => False

section

theorem steady_start (hm : Whole L m ns) (hmem : Memory w.heap slots)
    (hg : HasGlobals m w.globals w.heap slots) (hl : m.Listed ⟨f,0⟩) {args : List Datum}
    (hw : ∀ k, IsWord (args.getD k .zero).int)
    (hargs : ∀ k t, (m.func f).params[k]? = some t → Argument w.heap slots t (args.getD k .zero)) :
    Steady m ns slots (.start m w f args) where
  memory := hmem
  globals := hg
  frames := .cons ⟨[],.start hm hl hw hargs⟩ .nil
  callers _ hc := absurd hc not_mem_nil

theorem Steady.run (hm : Whole L m ns)
    (hs : Steady m ns slots s₀) (h : Run.Reaches m s₀ s) : ∃ slots', Steady m ns slots' s :=
  h.keep (P := fun s => ∃ slots', Steady m ns slots' s)
    (fun _ _ hs hn => hs.elim fun _ hs => hs.next hm hn) ⟨slots,hs⟩

theorem Steady.excused (hm : Whole L m ns) (hs : Steady m ns slots s) {r : List InstrId}
    {sites : List Site} {e : Fault} (hr : s.state.active.rest = i :: r)
    (hst : Run.step m s.state i = .faulted w (.fault sites e)) :
    Excused m s.state.world s.state.active i e := by
  obtain ⟨l,ls,pre,j,r',hl,hp,hcs⟩ := hs.poised hm
  cases hr.symm.trans hp.rest
  have hacts := hp.acts
  obtain ⟨⟨w0,a,cs⟩,executed⟩ := s
  rw [Run.step_eq] at hst
  cases ha : Run.action m w0 a i with
  | go => rw [ha] at hst; cases hst
  | call => rw [ha] at hst; cases hst
  | done => rw [ha] at hst; cases cs <;> cases hst
  | fault w' e' =>
    rw [ha] at hst hacts
    cases hst
    exact hacts

end

section

/-- The functions that a program need not define are not called `main`. -/
theorem layout_main (hm : Laid L m ns) (hf : m.func? "main" = some f) : (m.func f).layout ≠ [] := by
  have hname : (m.func f).name = "main" := by simpa using find?_some hf
  have hmem : f ∈ m.funcs := mem_of_find?_eq_some hf
  rw [hm.funcs] at hmem
  intro hnil
  obtain ⟨x,hx,-⟩ := hm.builtin f (mem_range.mp hmem) hnil
  rw [hname] at hx
  cases x <;> exact absurd hx (by decide)

theorem Steady.endsWell (hm : Whole L m ns) (hlen : ∀ f ∈ m.funcs, m.Affords f)
    (hs0 : Steady m ns slots s₀) (n : Nat) :
    EndsWell m s₀ ((Run.run m n s₀.state).2.2.map fun v => Numeric.wrap32 v.int) := by
  have hrest : ∀ s, Run.Reaches m s₀ s → s.state.active.rest ≠ [] := by
    intro s hr
    obtain ⟨slots',hs⟩ := hs0.run hm hr
    obtain ⟨_,_,_,i,r,_,hp,_⟩ := hs.poised hm
    rw [hp.rest]
    exact cons_ne_nil i r
  have hrun := Run.run_of_reaches hrest
    (fun s i r w sites e hr hi hst => by
      obtain ⟨slots',hs⟩ := hs0.run hm hr
      exact hs.excused hm hi hst) n .refl
  revert hrun
  cases (Run.run m n s₀.state).2.2 with
  | ok v => exact fun _ => trivial
  | error e =>
    cases e with
    | fault sites e =>
      rintro (rfl | ⟨t,i,ht,hi,hx⟩)
      · exact .inl rfl
      · cases hx with
        | divideByZero => exact .inr (.inl rfl)
        | negativeIndex => exact .inr (.inr (.inl rfl))
        | input e => exact .inr (.inr (.inr ⟨e,rfl⟩))
        | outOfBounds hb => exact ⟨t,i,ht,hi,hb⟩
        | tooLong hlong =>
          obtain ⟨_,hs⟩ := hs0.run hm ht
          obtain ⟨_,_,_,_,_,_,hp,_⟩ := hs.poised hm
          exact absurd (hlen _ (hm.funcs ▸ mem_range.mpr (hm.func_lt hp.frame.listed))) hlong
    | _ => exact id

end

/-- A run of an accepted program in which no global and no local is too long passes only states in
which nothing has gone wrong, and it ends well. -/
theorem accepted_runs_well {name source : String} {m : Module}
    (h : Module.ofSource name source = .ok m) (hv : ∀ f ∈ m.funcs, m.verify f = .ok ())
    {f : FuncId} (hf : m.func? "main" = some f) (hp : (m.func f).params = [])
    (hglobals : ∀ g ∈ m.globals, (m.global g).contents.length ≤ Object.limit)
    (hlocals : ∀ f ∈ m.funcs, m.Affords f) (input : String) (budget : Nat) :
    ∃ mc, Machine.new m .empty input budget = some mc ∧
      (∀ s, Run.Reaches m (.start m mc.world f []) s → Proper m s) ∧
      EndsWell m (.start m mc.world f []) (mc.main m).2 := by
  obtain ⟨p,hparse,hlower⟩ := Module.ofSource_eq_ok h
  obtain ⟨ns,hb,hclosed⟩ := built_of_lower (L := sourceLaw) (fun _ _ => trivial)
    (declares_sourceLaw hparse) hlower
  have hm : Whole sourceLaw m ns := ⟨hb.toLaid,hclosed,fun _ hk => isWord_of_isLiteral hk⟩
  have hlay := layout_main hm.toLaid hf
  obtain ⟨mc,hmc⟩ := Option.isSome_iff_exists.mp
    ((Machine.isSome_new_iff m .empty input budget).mpr hglobals)
  obtain ⟨hmem,hg⟩ := new_memory hm.toLaid hmc
  have hs : Steady m ns (fun _ => False) (.start m mc.world f []) :=
    steady_start hm hmem hg (hm.listed_entry hlay) (fun _ => isWord_zero) fun k t hk => by
      rw [hp] at hk
      cases hk
  refine ⟨mc,hmc,fun s hr => (hs.run hm hr).elim fun _ hs => hs.proper hm hv,?_⟩
  rw [Machine.main_eq hf hp hlay]
  exact hs.endsWell hm hlocals _

theorem accepted_runs_well_quotient :
    let source := "int a[3]; int f(int x[], int i) { if (i < 3) x[i] = 6 / i; return x[i]; } int main(void) { return f(a,input()); }"
    ∃ m f, Module.ofSource "quotient" source = .ok m ∧ (∀ f ∈ m.funcs, m.verify f = .ok ()) ∧
      m.func? "main" = some f ∧ (m.func f).params = [] ∧
      (∀ g ∈ m.globals, (m.global g).contents.length ≤ Object.limit) ∧
      (∀ f ∈ m.funcs, m.Affords f) ∧ ∃ mc, Machine.new m .empty "2" 50 = some mc ∧
        (∀ s, Run.Reaches m (.start m mc.world f []) s → Proper m s) ∧
        EndsWell m (.start m mc.world f []) (mc.main m).2 := by
  intro source
  obtain ⟨m,hm,hc⟩ := Module.exists_ofSource "quotient" source (fun m =>
    m.funcs.all (fun f => (m.funcDefect? f).isNone && m.Affords f) &&
      m.globals.all (fun g => (m.global g).contents.length ≤ Object.limit) &&
      (m.func? "main").any fun f => (m.func f).params = []) (by decide +kernel)
  simp only [Bool.and_eq_true,all_eq_true,decide_eq_true_eq,Option.isNone_iff_eq_none,
    Option.any_eq_true] at hc
  obtain ⟨⟨hfuncs,hglobals⟩,f,hf,hp⟩ := hc
  have hv : ∀ f ∈ m.funcs, m.verify f = .ok () := fun f hf =>
    Module.verify_eq_ok_iff.mpr (hfuncs f hf).1
  have hlocals : ∀ f ∈ m.funcs, m.Affords f := fun f hf => (hfuncs f hf).2
  exact ⟨m,f,hm,hv,hf,hp,hglobals,hlocals,accepted_runs_well hm hv hf hp hglobals hlocals "2" 50⟩

/-- The run stopped at an object that is too long. -/
def breaksDown : Except RunError Int → Bool
  | .error (.fault _ .tooLong) => true
  | _ => false

/-- A local that is too long breaks the program down. -/
theorem oversized_local_faults :
    let source := "int main(void) { int a[9223372036854775807]; return 0; }"
    ∃ m f mc, Module.ofSource "m" source = .ok m ∧ (∀ f ∈ m.funcs, m.verify f = .ok ()) ∧
      m.func? "main" = some f ∧ (m.func f).params = [] ∧ Machine.new m .empty "" 50 = some mc ∧
      ∃ sites, (mc.main m).2 = .error (.fault sites .tooLong) ∧
        ¬EndsWell m (.start m mc.world f []) (mc.main m).2 := by
  intro source
  obtain ⟨m,hm,hc⟩ := Module.exists_ofSource "m" source (fun m =>
    m.funcs.all (fun f => (m.funcDefect? f).isNone) &&
      ((m.func? "main").any (fun f => (m.func f).params = []) &&
        (Machine.new m .empty "" 50).any fun mc => breaksDown (mc.main m).2)) (by decide +kernel)
  simp only [Bool.and_eq_true,all_eq_true,decide_eq_true_eq,Option.isNone_iff_eq_none,
    Option.any_eq_true] at hc
  obtain ⟨hv,⟨f,hf,hp⟩,mc,hmc,hend⟩ := hc
  refine ⟨m,f,mc,hm,fun f hf => Module.verify_eq_ok_iff.mpr (hv f hf),hf,hp,hmc,?_⟩
  unfold breaksDown at hend
  split at hend
  · rename_i sites heq
    exact ⟨sites,heq,by rw [heq]; simp [EndsWell]⟩
  · cases hend

end Safety
end CMinusF
