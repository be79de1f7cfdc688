import CMinusF.Proofs.Promotion.Match

/-! One instruction of the function before promotion. What became of a promoted local is matched by
no step at all on the other side, any other instruction by itself. -/
namespace CMinusF
open Run

namespace Match
variable {v : Operand} {d : Datum} {w1 : World} {x : InstrId}
variable {s : Pair} {s0 : Origin} {ι : Pairing} {w w' : World} {a a' : Activation}
  {pre rest : List InstrId} {V : InstrId → Option Operand} {obj : InstrId → Nat} {i : InstrId}

theorem eval_rel (h : Match s s0 ι w a w' a' pre V obj)
    (hv : ∀ l, v = .instr l → l ∈ s.before.instrs s.func ∧ s.Avail a.block pre l ∧
      s.plan.promoted l = false ∧
      (s.before.instr l).type.isVoid = false)
    (hc : ∀ c, v = .literal c → (s.after.literal c).value = (s.before.literal c).value) :
    (a.eval s.before s.globals v).Rel ι (a'.eval s.after s.globals' (s.plan.subst s.before v)) := by
  cases v with
  | literal c =>
    simp only [Plan.subst,Activation.eval,hc c rfl]
    split
    · exact .ofInt _
    · exact .ofFloat _
    · exact .zero
  | global g =>
    refine .ofAddress ⟨rfl,?_⟩
    rw [← h.globals,← h.globals']
    exact h.world.globals g
  | arg g n =>
    simp only [Plan.subst,Activation.eval,h.func,h.func']
    split
    · exact h.args n
    · exact .zero
  | instr l =>
    obtain ⟨hl,hav,hp,hvoid⟩ := hv l rfl
    exact h.regs l hl hav hp hvoid
  | block _ => exact .zero
  | func _ => exact .zero
  | hole => exact .zero

theorem not_promoted (hs : s.Ok) (h : (s.before.instr i).op ≠ .alloca) :
    s.plan.promoted i = false := by
  by_contra hn
  exact h (hs.promotes.alloca i (by simpa using hn)).2

theorem avail_of_append {y : InstrId} (hi : s.plan.promoted i = false)
    (hy : s.plan.promoted y = true) (h : s.Avail a.block (pre ++ [i]) y) :
    s.Avail a.block pre y := by
  rcases Point.avail_append h with rfl | h
  · simp [hi] at hy
  · exact h

theorem cell? (h : Match s s0 ι w a w' a' pre V obj) (hs : s.Ok) (hi : i ∈ s.before.instrs s.func)
    (hx : .instr x ∈ s.before.operands i) (hprom : s.plan.promoted x = true)
    (hav : s.Avail a.block pre x) :
    w.heap.cell? (a.eval s.before w.globals (.instr x)).address = some (obj x,0) := by
  obtain ⟨_,_,_,hlen,_⟩ := h.object x hprom hav
  rw [Activation.eval,h.address x hprom (hs.formed.valued i hi x hx) hav]
  exact Heap.cell?_eq_some_iff.mpr ⟨rfl,Int.le_refl _,by show (0 : Int) < _; omega,rfl⟩

variable (h : Match s s0 ι w a w' a' pre V obj) (hs : s.Ok) (hr : a.rest = i :: rest)
include h hr

theorem point_cons : Point s a.block pre (i :: rest) V := hr ▸ h.point

include hs

theorem operand_rel (hk : s.plan.keeps s.before i = true) (hv : v ∈ s.before.operands i) :
    (a.eval s.before s.globals v).Rel ι (a'.eval s.after s.globals' (s.plan.subst s.before v)) := by
  have hp := h.point_cons hr
  have hi := hp.mem_instrs hs
  refine h.eval_rel (fun l hl => ?_) fun c hc => hs.promotes.literal i hi c (hc ▸ hv)
  subst hl
  obtain ⟨hl,hav⟩ := hp.operand_avail hs hv
  exact ⟨hl,hav,hs.promotes.unmentioned i hi hk l hv,hs.formed.valued i hi l hv⟩

/-- What the other side computed before is not touched by the instruction that runs now. -/
theorem eval_advance {r : List InstrId} (hr' : a'.rest = i :: r) (d : Datum)
    (hv : ∀ j, v = .instr j → s.Avail a.block pre j) :
    (a'.advance s.after d).eval s.after s.globals' v = a'.eval s.after s.globals' v := by
  have hp := h.point_cons hr
  refine Activation.eval_congr (Activation.func_advance ..)
    (Activation.args_advance ..) fun j hj => ?_
  rw [Activation.get_advance hr',if_neg]
  rintro ⟨_,rfl⟩
  exact hp.not_avail hs (hv i hj)

/-- An instruction that has no counterpart: it computes what stands for it on the other side, and
changes nothing but the objects of the locals. -/
theorem skip (hk : s.plan.keeps s.before i = false)
    (hop : (s.before.instr i).op.isTerminator = false) {obj1 : InstrId → Nat} (hw : w1.Rel ι w')
    (hcalls : w'.calls = w1.calls) (hglob : w1.globals = s.globals)
    (hev : Evolves s0.pairing ι s0.heap s0.heap' w1.heap w'.heap)
    (hreg : s.plan.promoted i = false →
      d.Rel ι (a'.eval s.after s.globals' (s.plan.subst s.before (.instr i))))
    (hstore : (s.plan.storeOf? s.before i).isSome → d = .zero)
    (haddr : s.plan.promoted i = true → d = .ofAddress ⟨some (obj1 i),0⟩)
    (hsame : ∀ x, x ≠ i → obj1 x = obj x)
    (hobj : ∀ x, s.plan.promoted x = true → s.Avail a.block (pre ++ [i]) x →
      s0.heap.size ≤ obj1 x ∧ obj1 x < w1.heap.size ∧ (∀ p, ¬ ι (obj1 x) p) ∧
        1 ≤ (w1.heap.get (obj1 x)).length ∧
        ((w1.heap.get (obj1 x)).cells.get 0).Rel ι
          (a'.worth s.after s.globals' (s.plan.after s.before V i x)))
    (hdist : ∀ x y, s.plan.promoted x = true → s.plan.promoted y = true →
      s.Avail a.block (pre ++ [i]) x →
      s.Avail a.block (pre ++ [i]) y → obj1 x = obj1 y → x = y) :
    Match s s0 ι w1 (a.advance s.before d) w' a' (pre ++ [i]) (s.plan.after s.before V i) obj1 := by
  have hp := h.point_cons hr
  have hblock := Activation.block_advance s.before a d
  have hother : ∀ y, y ≠ i → (a.advance s.before d).registers.get y = a.registers.get y := by
    intro y hy
    rw [Activation.get_advance hr,if_neg (fun hh => hy hh.2.symm)]
  refine ⟨?_,hw,hcalls,hglob,h.globals',hev,?_,h.func',?_,?_,?_,?_,?_,?_,?_,?_⟩
  · rw [hblock,Activation.rest_advance hr]
    exact hp.next hs hop
  · rw [Activation.func_advance,h.func]
  · rw [Activation.args_advance]
    exact h.args
  · rw [hblock,h.block]
  · rw [Activation.rest_advance hr,h.rest,hr,List.filter_cons_of_neg (by simp [hk])]
  · rw [hblock]
    intro l hl hav hprom hvoid
    rcases Point.avail_append hav with rfl | hav'
    · rw [Activation.get_advance hr,if_pos ⟨hvoid,rfl⟩]
      exact hreg hprom
    · rw [hother l (by rintro rfl; exact hp.not_avail hs hav')]
      exact h.regs l hl hav' hprom hvoid
  · intro j hm hj
    refine ⟨?_,(h.blank j hm hj).2⟩
    rw [Activation.get_advance hr]
    split
    · grind
    · exact (h.blank j hm hj).1
  · rw [hblock]
    intro x hprom hvoid hav
    rcases Point.avail_append hav with rfl | hav'
    · rw [Activation.get_advance hr,if_pos ⟨hvoid,rfl⟩]
      exact haddr hprom
    · have hne : x ≠ i := by rintro rfl; exact hp.not_avail hs hav'
      rw [hother x hne,hsame x hne]
      exact h.address x hprom hvoid hav'
  · rw [hblock]
    exact hobj
  · rw [hblock]
    exact hdist

theorem load (hl : s.plan.loadOf? s.before i = some x) :
    ∃ d, action s.before w a i = .go w (a.advance s.before d) ∧
      Match s s0 ι w (a.advance s.before d) w' a' (pre ++ [i]) (s.plan.after s.before V i) obj := by
  have hp := h.point_cons hr
  obtain ⟨hop,hx,hprom⟩ := (Plan.loadOf?_eq_some _ _).mp hl
  have hi := hp.mem_instrs hs
  have hxm := Module.mem_operands_of_operand hx (by simp)
  obtain ⟨_,hav⟩ := hp.operand_avail hs hxm
  obtain ⟨_,_,_,_,hcell⟩ := h.object x hprom hav
  have hst : s.plan.storeOf? s.before i = none := by simp [Plan.storeOf?,hop]
  have hnp := not_promoted hs (i := i) (by simp [hop])
  have hread : w.heap.read? (a.eval s.before w.globals (s.before.operand i 0)).address =
      some ((w.heap.get (obj x)).cells.get 0) := by
    rw [hx,Heap.read?,h.cell? hs hi hxm hprom hav]
    rfl
  refine ⟨(w.heap.get (obj x)).cells.get 0,?_,?_⟩
  · rw [action_execute (by simp [hop]) (by simp [hop]) (by simp [hop])]
    simp only [Operation.execute,hop,Activation.getD_map_eval,hread]
  · refine h.skip hs hr (by simp [Plan.keeps,hl]) (by simp [hop,Opcode.isTerminator]) h.world
      h.calls h.globals
      h.evolves (fun _ => ?_) (by simp [hst]) (by simp [hnp]) (fun _ _ => rfl) ?_ ?_
    · have hfed : Feeds s.after (V x) (s.plan.value i) := hp.fed.1 x hl
      simp only [Plan.subst,hl,Option.isSome_some,↓reduceIte]
      rw [hfed.eval]
      exact hcell
    · intro y hy hav
      rw [s.plan.after_of_storeOf?_none s.before hst V]
      exact h.object y hy (avail_of_append hnp hy hav)
    · exact fun y z hy hz hav hav' => h.distinct y z hy hz (avail_of_append hnp hy hav)
        (avail_of_append hnp hz hav')

theorem store (hl : s.plan.storeOf? s.before i = some x) :
    ∃ w1 d, action s.before w a i = .go w1 (a.advance s.before d) ∧
      Match s s0 ι w1 (a.advance s.before d) w' a' (pre ++ [i])
      (s.plan.after s.before V i) obj := by
  have hp := h.point_cons hr
  obtain ⟨hop,hx,hprom⟩ := (Plan.storeOf?_eq_some _ _).mp hl
  have hi := hp.mem_instrs hs
  have hxm := Module.mem_operands_of_operand hx (by simp)
  obtain ⟨_,hav⟩ := hp.operand_avail hs hxm
  obtain ⟨ho0,ho,hpriv,_,_⟩ := h.object x hprom hav
  have hnp := not_promoted hs (i := i) (by simp [hop])
  have hload : s.plan.loadOf? s.before i = none := by simp [Plan.loadOf?,hop]
  let d := a.eval s.before w.globals (s.before.operand i 0)
  have hd : d.Rel ι (a'.eval s.after s.globals'
      (s.plan.subst s.before (s.before.operand i 0))) := by
    show (a.eval s.before w.globals _).Rel ι _
    rw [h.globals]
    refine h.eval_rel (fun l hl' => ?_) fun c hc => ?_
    · have hlm := Module.mem_operands_of_operand hl' (by simp)
      obtain ⟨h1,h2⟩ := hp.operand_avail hs hlm
      exact ⟨h1,h2,hs.promotes.stored i hi x hl l hl',hs.formed.valued i hi l hlm⟩
    · exact hs.promotes.literal i hi c (Module.mem_operands_of_operand hc (by simp))
  have hcell : w.heap.cell? (a.eval s.before w.globals (s.before.operand i 1)).address =
      some (obj x,0) := by
    rw [hx,h.cell? hs hi hxm hprom hav]
  refine ⟨{ w with heap := w.heap.write (obj x) 0 d },.zero,?_,?_⟩
  · rw [action_execute (by simp [hop]) (by simp [hop]) (by simp [hop])]
    simp only [Operation.execute,hop,Activation.getD_map_eval,hcell,d]
  · refine h.skip hs hr (by simp [Plan.keeps,hl]) (by simp [hop,Opcode.isTerminator])
      (h.world.withHeap (h.world.heap.write_left ho hpriv 0 d) fun _ _ => id) h.calls h.globals
      (h.evolves.write_left ho0 ho 0 d) (fun _ => ?_) (fun _ => rfl) (by simp [hnp])
        (fun _ _ => rfl) ?_ ?_
    · -- the register of a store is never written on the other side
      simp only [Plan.subst,hload,Option.isSome_none,Bool.false_eq_true,↓reduceIte,Activation.eval,
        (h.blank i hi (by simp [hl])).2]
      exact .zero
    · intro y hy hav'
      have hav' := avail_of_append hnp hy hav'
      obtain ⟨h1,h2,h3,h4,h5⟩ := h.object y hy hav'
      dsimp only
      rw [Heap.size_write _ ho,Heap.length_write,Heap.get_cells_write,Plan.after,hl]
      refine ⟨h1,h2,h3,h4,?_⟩
      by_cases hxy : x = y
      · subst hxy
        simpa [Activation.worth] using hd
      · rw [if_neg (fun hh => hxy (h.distinct x y hprom hy hav hav' hh.1)),
          if_neg (by simpa using hxy)]
        exact h5
    · exact fun y z hy hz hav hav' => h.distinct y z hy hz (avail_of_append hnp hy hav)
        (avail_of_append hnp hz hav')

theorem alloca (hprom : s.plan.promoted i = true) :
    ∃ w1 d obj1, action s.before w a i = .go w1 (a.advance s.before d) ∧
      Match s s0 ι w1 (a.advance s.before d) w' a' (pre ++ [i])
      (s.plan.after s.before V i) obj1 := by
  have hp := h.point_cons hr
  have hop := (hs.promotes.alloca i hprom).2
  have hst : s.plan.storeOf? s.before i = none := by simp [Plan.storeOf?,hop]
  have hV := h.point.unset i hprom (hp.not_avail hs)
  let n := ((s.before.instr i).object.getD .void).length
  have hn : n ≤ Object.limit := by
    rw [show n = 0 from Ty.length_of_isScalar (hs.promotes.scalar i hprom)]
    decide
  let obj1 : InstrId → Nat := fun x => if x = i then w.heap.size else obj x
  have hi1 : obj1 i = w.heap.size := if_pos rfl
  have hother : ∀ x, x ≠ i → obj1 x = obj x := fun x hx => if_neg hx
  have hold : ∀ x, s.plan.promoted x = true → s.Avail a.block pre x → x ≠ i ∧
      obj x < w.heap.size := by
    intro x hx hav
    exact ⟨by rintro rfl; exact hp.not_avail hs hav,(h.object x hx hav).2.1⟩
  refine ⟨{ w with heap := (w.heap.extend (.zeros n)).1 },
    .ofAddress ⟨some w.heap.size,0⟩,obj1,?_,?_⟩
  · rw [action_execute (by simp [hop]) (by simp [hop]) (by simp [hop]),
      Operation.execute_alloca_of_le hop hn]
  · refine h.skip hs hr (by simp [Plan.keeps,hprom]) (by simp [hop,Opcode.isTerminator])
      (h.world.withHeap (h.world.heap.extend_left _) fun _ _ => id) h.calls h.globals
      (h.evolves.extend_left _) (by simp [hprom]) (by simp [hst])
        (fun _ => by rw [hi1]) hother ?_ ?_
    · intro y hy hav
      rw [s.plan.after_of_storeOf?_none s.before hst V]
      rcases Point.avail_append hav with rfl | hav
      · rw [hi1,hV]
        refine ⟨h.evolves.left_size,by simp [Heap.extend],?_,?_,?_⟩
        · intro p hn
          have := (h.world.heap.bound _ _ hn).1
          omega
        · simp only [Heap.extend,Table.get_push,↓reduceIte,Object.zeros]
          omega
        · simp only [Heap.extend,Table.get_push,↓reduceIte,Object.zeros,Table.get_empty]
          exact .zero
      · obtain ⟨hne,hlt⟩ := hold y hy hav
        obtain ⟨h1,h2,h3,h4,h5⟩ := h.object y hy hav
        rw [hother y hne,Heap.get_extend_of_lt _ hlt]
        refine ⟨h1,?_,h3,h4,h5⟩
        simp only [Heap.extend,Table.size_push]
        omega
    · intro y z hy hz hav hav' he
      rcases Point.avail_append hav with rfl | hay <;> rcases Point.avail_append hav' with rfl | haz
      · rfl
      · grind
      · grind
      · rw [hother y (hold y hy hay).1,hother z (hold z hz haz).1] at he
        exact h.distinct y z hy hz hay haz he

theorem advance (hk : s.plan.keeps s.before i = true)
    (hop : (s.before.instr i).op.isTerminator = false) {ι1 : Pairing} {w1' : World} {d' : Datum}
    (hw : w1.Rel ι1 w1') (hcalls : w1'.calls = w1.calls) (hglob : w1.globals = w.globals)
    (hglob' : w1'.globals = w'.globals) (hev : Evolves ι ι1 w.heap w'.heap w1.heap w1'.heap)
    (hd : d.Rel ι1 d') :
    Match s s0 ι1 w1 (a.advance s.before d) w1' (a'.advance s.after d') (pre ++ [i])
      (s.plan.after s.before V i) obj := by
  have hp := h.point_cons hr
  obtain ⟨hnp,hnl,hns⟩ := (Plan.keeps_iff _ _).mp hk
  have hr' : a'.rest = i :: rest.filter (s.plan.keeps s.before) := by
    rw [h.rest,hr,List.filter_cons_of_pos hk]
  have htype := (hs.promotes.instr i (hp.mem_instrs hs) hk).2.1
  have hblock := Activation.block_advance s.before a d
  have hV := s.plan.after_of_storeOf?_none s.before hns V
  have hold : ∀ y, s.Avail a.block pre y → (a.advance s.before d).registers.get y =
      a.registers.get y := by
    intro y hy
    rw [Activation.get_advance hr,if_neg]
    rintro ⟨_,rfl⟩
    exact hp.not_avail hs hy
  refine ⟨?_,hw,hcalls,hglob.trans h.globals,hglob'.trans h.globals',h.evolves.trans hev,?_,?_,?_,
    ?_,?_,?_,?_,?_,?_,?_⟩
  · rw [hblock,Activation.rest_advance hr]
    exact hp.next hs hop
  · rw [Activation.func_advance,h.func]
  · rw [Activation.func_advance,h.func']
  · rw [Activation.args_advance,Activation.args_advance]
    exact fun n => (h.args n).mono hev.mono
  · rw [hblock,Activation.block_advance,h.block]
  · rw [Activation.rest_advance hr,Activation.rest_advance hr']
  · rw [hblock]
    intro l hl hav hprom hvoid
    rcases Point.avail_append hav with rfl | hav'
    · simp only [Plan.subst,hnl,Option.isSome_none,Bool.false_eq_true,↓reduceIte,Activation.eval]
      rw [Activation.get_advance hr,Activation.get_advance hr',if_pos ⟨hvoid,rfl⟩,
        if_pos ⟨htype ▸ hvoid,rfl⟩]
      exact hd
    · have hsub : ∀ j, s.plan.subst s.before (.instr l) = .instr j →
        s.Avail a.block pre j := fun j hj =>
        hs.promotes.available_subst h.point.reached h.point.prefix_line
          (fun l' hl' => Operand.instr.inj hl' ▸ hav') hj
      rw [hold l hav',h.eval_advance hs hr hr' d' hsub]
      exact (h.regs l hl hav' hprom hvoid).mono hev.mono
  · intro j hm hj
    have hji : i ≠ j := by
      rintro rfl
      simp [hns,hop] at hj
    rw [Activation.get_advance hr,Activation.get_advance hr',if_neg (fun hh => hji hh.2),
      if_neg (fun hh => hji hh.2)]
    exact h.blank j hm hj
  · rw [hblock]
    intro x hx hvoid hav
    rw [hold x (avail_of_append hnp hx hav)]
    exact h.address x hx hvoid (avail_of_append hnp hx hav)
  · rw [hblock,hV]
    intro x hx hav
    obtain ⟨h1,h2,h3,h4,h5⟩ := h.object x hx (avail_of_append hnp hx hav)
    have hworth : (a'.advance s.after d').worth s.after s.globals' (V x) =
        a'.worth s.after s.globals' (V x) := by
      cases hx' : V x with
      | none => rw [Activation.worth_none,Activation.worth_none]
      | some v =>
        refine h.eval_advance hs hr hr' d' fun j hj => h.point.available x j ?_
        rw [hx',hj]
    rw [hev.left _ h2 h3,hworth]
    exact ⟨h1,h2.trans_le hev.left_size,hev.left_private h2 h3,h4,h5.mono hev.mono⟩
  · rw [hblock]
    intro x y hx hy hav hav'
    exact h.distinct x y hx hy (avail_of_append hnp hx hav) (avail_of_append hnp hy hav')

end Match
end CMinusF
