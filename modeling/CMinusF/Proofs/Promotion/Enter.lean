import CMinusF.Proofs.Promotion.Step

/-! Entering a block. The old phis take values that correspond; a new phi takes what its local is
worth at the end of the block before, and a local without a phi is worth what it was. -/
namespace CMinusF
open Run List

namespace Point
variable {s : Pair} {b c : BlockId} {pre rest : List InstrId} {V : InstrId → Option Operand}
  {i j l : InstrId}

theorem rest_eq_nil (hs : s.Ok) (h : Point s b pre (i :: rest) V)
    (hi : (s.before.instr i).op.isTerminator = true) :
    rest = [] := by
  obtain ⟨is,t,hb,_,his⟩ := hs.formed.terminated b (h.mem_layout hs)
  obtain ⟨done,hdone⟩ := h.suffix
  rw [hb] at hdone
  by_contra hne
  obtain ⟨init,t',rfl⟩ : ∃ init t', rest = init ++ [t'] := ⟨_,_,(dropLast_append_getLast hne).symm⟩
  have : is = done ++ i :: init := by
    have h' : (done ++ i :: init) ++ [t'] = is ++ [t] := by simpa using hdone
    exact (append_inj_left' h' rfl).symm
  have hf := his i (by simp [this])
  rw [hi] at hf
  cases hf

end Point

namespace Pair
variable {s : Pair} {b c d : BlockId} {i j l : InstrId}

theorem Ok.not_newPhi (hs : s.Ok) (hc : c ∈ (s.before.func s.func).layout)
    (hi : i ∈ s.before.instrs s.func) :
    i ∉ s.plan.newPhis c := by
  intro hn
  obtain ⟨d,hd,hi⟩ := Module.mem_instrs_iff.mp hi
  have hic : i ∈ s.plan.line s.before c := by simp [Plan.line,hn]
  have hid := Promotes.block_subset_line s.plan s.before d hi
  obtain rfl := hs.promotes.block_unique hd hc hid hic
  have hnd := hs.promotes.line_nodup hd
  rw [Plan.line,nodup_append,nodup_append] at hnd
  rw [s.before.instrs_eq_phis_append] at hi
  rcases mem_append.mp hi with hi | hi
  · exact hnd.1.2.2 i hi i hn rfl
  · exact hnd.2.2 i (by simp [hn]) i hi rfl

theorem Ok.not_phi (hs : s.Ok) (hc : s.before.Reaches s.entry c) (hdc : d ≠ c)
    (hd : s.before.Dominates s.entry d c) (hj : j ∈ s.plan.line s.before d) :
    j ∉ s.after.phis c := by
  have hcl := hs.formed.mem_layout hc
  intro hn
  rw [hs.promotes.phis_eq hs.formed hcl] at hn
  refine hdc (hs.promotes.block_unique (hs.formed.mem_layout (hd.reaches hc)) hcl hj ?_)
  exact mem_append_left _ hn

end Pair

namespace Match
variable {s : Pair} {s0 : Origin} {ι : Pairing} {w w' : World} {a a' : Activation}
  {pre rest : List InstrId} {V : InstrId → Option Operand} {obj : InstrId →
    Nat} {i t : InstrId} {c : BlockId}

theorem regs_end (h : Match s s0 ι w a w' a' pre V obj) (hr : a.rest = [t])
    (ht : (s.before.instr t).op.isTerminator = true) {l : InstrId} (hl : l ∈ s.before.instrs s.func)
    (hav : s.Avail a.block (s.plan.line s.before a.block) l) (hp : s.plan.promoted l = false)
    (hvoid : (s.before.instr l).type.isVoid = false) :
    (a.registers.get l).Rel ι (a'.eval s.after s.globals' (s.plan.subst s.before (.instr l))) := by
  rw [h.point.line,hr] at hav
  rcases Point.avail_append hav with rfl | hav
  · have hload : s.plan.loadOf? s.before l = none := by
      cases hop : (s.before.instr l).op <;> simp_all [Plan.loadOf?,Opcode.isTerminator]
    have hb := h.blank l hl (.inr ht)
    simp only [Plan.subst,hload,Option.isSome_none,Bool.false_eq_true,↓reduceIte,
      Activation.eval,hb.1,hb.2]
    exact .zero
  · exact h.regs l hl hav hp hvoid

theorem phi_rel (hs : s.Ok) (h : Match s s0 ι w a w' a' pre V obj) (hr : a.rest = [t])
    (ht : (s.before.instr t).op.isTerminator = true) (hc : s.before.Reaches s.entry c) {p : InstrId}
    (hp : p ∈ s.before.phis c) :
    (a.phiValue s.before s.globals (some a.block) p).Rel ι
      (a'.phiValue s.after s.globals' (some a'.block) p) := by
  have hcl := hs.formed.mem_layout hc
  have hop := Module.op_of_mem_phis hp
  have hpm : p ∈ s.before.instrs s.func := hs.formed.mem_instrs hc (s.before.phis_subset c hp)
  have hkp := hs.promotes.keeps_phi hop
  obtain ⟨ps,hps⟩ := hs.formed.pairs c hcl p hp
  have hps' : s.after.operands p =
      Module.arms (ps.map fun x => (s.plan.subst s.before x.1,x.2)) := by
    rw [(hs.promotes.instr p hpm hkp).2.2.2,hps,Module.map_arms fun _ => rfl]
  simp only [Activation.phiValue,Option.bind_some,Module.incomingFor?_of_operands hps,
    Module.incomingFor?_of_operands hps',find?_map,Function.comp_def,h.block]
  cases hf : ps.find? (fun x => decide (x.2 = a.block)) with
  | none => exact .zero
  | some x =>
    obtain ⟨v,q⟩ := x
    have hq : q = a.block := by simpa using find?_some hf
    subst hq
    have hmem := mem_of_find?_eq_some hf
    have hin : (v,Operand.block a.block) ∈ s.before.incoming p := by
      rw [Module.incoming,hps,Module.pairs_flatMap]
      exact mem_map.mpr ⟨_,hmem,rfl⟩
    have hvp : v ∈ s.before.operands p := by
      rw [hps]
      exact mem_flatMap.mpr ⟨_,hmem,by simp⟩
    simp only [Option.map_some]
    cases v with
    | instr l =>
      have hav := hs.formed.phi_dominated c hc p hp a.block h.point.reached l hin
      have hlm : l ∈ s.before.instrs s.func := by
        rcases hav with hj | ⟨d,_,hd,hj⟩
        · exact hs.formed.mem_instrs h.point.reached hj
        · exact hs.formed.mem_instrs (hd.reaches h.point.reached) hj
      refine h.regs_end hr ht hlm (hav.mono_line (Promotes.block_subset_line _ _ _)
        (Promotes.block_subset_line s.plan s.before)) ?_ ?_
      · exact hs.promotes.unmentioned p hpm hkp l hvp
      · exact hs.formed.valued p hpm l hvp
    | _ => exact h.eval_rel (by simp) fun c hc => hs.promotes.literal p hpm c (hc ▸ hvp)

theorem enter (hs : s.Ok) (h : Match s s0 ι w a w' a' pre V obj) (hr : a.rest = [t])
    (hop : (s.before.instr t).op = .br) (hsucc : c ∈ s.before.succs a.block) :
    Match s s0 ι w (a.enter s.before s.globals (some a.block) c) w'
      (a'.enter s.after s.globals' (some a'.block) c)
      (s.before.phis c ++ s.plan.newPhis c) (s.plan.start c) obj := by
  have ht : (s.before.instr t).op.isTerminator = true := by simp [hop,Opcode.isTerminator]
  have hc := h.point.reached.step hsucc
  have hcl := hs.formed.mem_layout hc
  have hphis := hs.promotes.phis_eq hs.formed hcl
  have htm : t ∈ s.before.instrs s.func := (hr ▸ h.point).mem_instrs hs
  have hVend : V = s.plan.finish a.block := by
    have hf := h.point.finish
    rw [hr] at hf
    rw [← hf]
    exact (s.plan.after_of_storeOf?_none s.before (by simp [Plan.storeOf?,hop]) V).symm
  -- an old value is read as before unless it is a phi of the block
  have hold : ∀ v, (∀ j, v = .instr j → j ∉ s.after.phis c) →
      (a'.enter s.after s.globals' (some a'.block) c).eval s.after s.globals' v =
        a'.eval s.after s.globals' v := by
    intro v hv
    refine Activation.eval_congr (Activation.func_enter ..)
      (Activation.args_enter ..) fun j hj => ?_
    rw [Activation.get_enter,if_neg (hv j hj)]
  have hup : ∀ l, l ∉ s.before.phis c ++ s.plan.newPhis c →
    s.Avail c (s.before.phis c ++ s.plan.newPhis c) l →
      s.Avail c [] l ∧ s.Avail a.block (s.plan.line s.before a.block) l := by
    intro l hl hav
    have h0 : s.Avail c [] l := hav.resolve_left hl |> Or.inr
    exact ⟨h0,h0.of_succ (by simp) hsucc⟩
  have hlocal : ∀ x, s.plan.promoted x = true → s.Avail c (s.before.phis c ++ s.plan.newPhis c) x →
      x ∉ s.before.phis c ++ s.plan.newPhis c ∧ s.Avail a.block pre x := by
    intro x hx hav
    obtain ⟨hxb,hxop⟩ := hs.promotes.alloca x hx
    have hxm := hs.formed.mem_instrs (.refl _ _) (s.before.body_subset _ hxb)
    have hn : x ∉ s.before.phis c ++ s.plan.newPhis c := by
      intro hn
      rcases mem_append.mp hn with hn | hn
      · have := Module.op_of_mem_phis hn
        simp [hxop] at this
      · exact hs.not_newPhi hcl hxm hn
    refine ⟨hn,?_⟩
    have hav := (hup x hn hav).2
    rw [h.point.line,hr] at hav
    rcases Point.avail_append hav with rfl | hav
    · simp [hxop] at hop
    · exact hav
  refine ⟨.start hs hc,h.world,h.calls,h.globals,h.globals',h.evolves,h.func,h.func',h.args,rfl,?_,
    ?_,?_,?_,?_,?_⟩
  · simp only [Activation.rest_enter]
    exact hs.promotes.body_eq hs.formed hcl
  · intro l hl hav hprom hvoid
    by_cases hphi : l ∈ s.before.phis c
    · have hload : s.plan.loadOf? s.before l = none := by
        simp [Plan.loadOf?,Module.op_of_mem_phis hphi]
      simp only [Plan.subst,hload,Option.isSome_none,Bool.false_eq_true,↓reduceIte,Activation.eval]
      rw [Activation.get_enter,Activation.get_enter,if_pos hphi,if_pos (by simp [hphis,hphi])]
      exact h.phi_rel hs hr ht hc hphi
    · have hn : l ∉ s.before.phis c ++ s.plan.newPhis c := by
        simp only [mem_append,not_or]
        exact ⟨hphi,hs.not_newPhi hcl hl⟩
      obtain ⟨h0,hend⟩ := hup l hn hav
      rw [Activation.get_enter,if_neg hphi,hold]
      · exact h.regs_end hr ht hl hend hprom hvoid
      · intro j hj
        have := hs.promotes.available_subst hc nil_prefix
          (fun l' hl' => Operand.instr.inj hl' ▸ h0) hj
        rcases this with hj | ⟨d,hd,hdom,hj⟩
        · simp at hj
        · exact hs.not_phi hc hd hdom hj
  · intro j hm hj
    have hn : j ∉ s.before.phis c := by
      intro hn
      have := Module.op_of_mem_phis hn
      simp [Plan.storeOf?,this,Opcode.isTerminator] at hj
    have hn' : j ∉ s.after.phis c := by
      rw [hphis]
      simp only [mem_append,not_or]
      exact ⟨hn,hs.not_newPhi hcl hm⟩
    rw [Activation.get_enter,Activation.get_enter,if_neg hn,if_neg hn']
    exact h.blank j hm hj
  · intro x hx hvoid hav
    obtain ⟨hn,hav⟩ := hlocal x hx hav
    rw [Activation.get_enter,if_neg (fun hm => hn (mem_append_left _ hm))]
    exact h.address x hx hvoid hav
  · intro x hx hav
    obtain ⟨_,hav⟩ := hlocal x hx hav
    obtain ⟨h1,h2,h3,h4,h5⟩ := h.object x hx hav
    refine ⟨h1,h2,h3,h4,?_⟩
    rw [hVend] at h5
    by_cases hphi : ∃ p ∈ s.plan.newPhis c, s.plan.localOf p = x
    · obtain ⟨p,hp,rfl⟩ := hphi
      obtain ⟨v,hv,hfeed⟩ := hs.promotes.incoming a.block h.point.reached c hsucc p hp
      rw [hs.promotes.start_phi c hc p hp]
      simp only [Activation.worth,Option.map_some,Activation.eval]
      rw [Activation.get_enter,if_pos (by simp [hphis,hp]),Activation.phiValue,h.block]
      simp only [Option.bind_some,hv,Option.map_some,hfeed.eval]
      exact h5
    · obtain ⟨hsame,habove⟩ := hs.promotes.start_same c hc x fun p hp hx => hphi ⟨p,hp,hx⟩
      have hw : (a'.enter s.after s.globals' (some a'.block) c).worth s.after s.globals'
        (s.plan.start c x) =
          a'.worth s.after s.globals' (s.plan.start c x) := by
        cases hst : s.plan.start c x with
        | none => rw [Activation.worth_none,Activation.worth_none]
        | some v =>
          refine hold v fun j hj => ?_
          obtain ⟨d,hd,hdom,hj⟩ := habove j (by rw [hst,hj])
          exact hs.not_phi hc hd hdom hj
      rw [hw,hsame a.block h.point.reached hsucc]
      exact h5
  · intro x y hx hy hav hav'
    exact h.distinct x y hx hy (hlocal x hx hav).2 (hlocal y hy hav').2

theorem start (hs : s.Ok) (hw : w.Rel ι w') (hcalls : w'.calls = w.calls)
    (hglob : w.globals = s.globals) (hglob' : w'.globals = s.globals') {args args' : List Datum}
    (hargs : ∀ n, (args.getD n .zero).Rel ι (args'.getD n .zero)) :
    Match s ⟨w.heap,w'.heap,ι⟩ ι w (activation s.before w.globals s.func args) w'
      (activation s.after w'.globals s.func args') (s.before.phis s.entry ++ s.plan.newPhis s.entry)
      (s.plan.start s.entry) fun _ => 0 := by
  have hel := hs.formed.entry_mem
  have hphis := hs.promotes.phis_eq hs.formed hel
  have hentry : (s.before.func s.func).entryBlock?.getD default = s.entry := by
    rw [Func.entryBlock?,hs.formed.entry,Option.getD_some]
  have hentry' : (s.after.func s.func).entryBlock?.getD default = s.entry := by
    rw [Func.entryBlock?,hs.promotes.layout,hs.formed.entry,Option.getD_some]
  have hzero : ∀ (m : Module) (g : Table (Option Nat)) (as : List Datum) (j : InstrId),
      ((⟨s.func,as,.empty,default,[]⟩ : Activation).enter m g none s.entry).registers.get
        j = .zero := by
    intro m g as j
    rw [Activation.get_enter]
    split
    · simp [Activation.phiValue]
    · exact Table.get_empty j
  have honly : ∀ l, s.Avail s.entry (s.before.phis s.entry ++ s.plan.newPhis s.entry) l →
      l ∈ s.before.phis s.entry ++ s.plan.newPhis s.entry := by
    rintro l (hl | ⟨d,hd,hdom,_⟩)
    · exact hl
    · exact absurd (mem_singleton.mp (hdom _ .start)) hd
  have hnone : ∀ x, s.plan.promoted x = true →
      ¬ s.Avail s.entry (s.before.phis s.entry ++ s.plan.newPhis s.entry) x := by
    intro x hx hav
    obtain ⟨hxb,_⟩ := hs.promotes.alloca x hx
    have hnd := hs.promotes.line_nodup hel
    rw [Plan.line,nodup_append] at hnd
    exact hnd.2.2 x (honly x hav) x hxb rfl
  simp only [activation,hentry,hentry']
  refine ⟨.start hs (.refl _ _),hw,hcalls,hglob,hglob',.refl _ _ _,rfl,rfl,hargs,rfl,?_,?_,
    ?_,?_,?_,?_⟩
  · simp only [Activation.rest_enter]
    exact hs.promotes.body_eq hs.formed hel
  · intro l hl hav _ _
    have hphi : l ∈ s.before.phis s.entry :=
      (mem_append.mp (honly l hav)).resolve_right (hs.not_newPhi hel hl)
    have hload : s.plan.loadOf? s.before l = none := by
      simp [Plan.loadOf?,Module.op_of_mem_phis hphi]
    simp only [Plan.subst,hload,Activation.eval,hzero]
    exact .zero
  · intro j _ _
    exact ⟨hzero ..,hzero ..⟩
  · intro x hx _ hav
    exact absurd hav (hnone x hx)
  · intro x hx hav
    exact absurd hav (hnone x hx)
  · intro x y hx _ hav
    exact absurd hav (hnone x hx)

end Match
end CMinusF
