import CMinusF.Proofs.Machine.Pairing
import CMinusF.Proofs.Machine.Registers
import CMinusF.Proofs.Promotion.Plan

/-! Activations of a function before and after promotion that stand at the same point: registers
that are available agree, and each promoted local has an object of its own that holds what the local
is worth. -/
namespace CMinusF
open Run List

namespace Promotes
variable {m m' : Module} {f : FuncId} {e b c : BlockId} {P : Plan} {i j l : InstrId}
  {pre post : List InstrId}

/-! Where instructions stand. -/

theorem line_nodup (hP : Promotes m m' f e P) (hb : b ∈ (m.func f).layout) : (P.line m b).Nodup :=
  (nodup_flatMap.mp hP.nodup).1 b hb

theorem block_unique (hP : Promotes m m' f e P) (hb : b ∈ (m.func f).layout)
    (hc : c ∈ (m.func f).layout) (hi : i ∈ P.line m b) (hi' : i ∈ P.line m c) : b = c := by
  by_contra hne
  have hd := (nodup_flatMap.mp hP.nodup).2
  have : Std.Symm fun a b => List.Disjoint (P.line m a) (P.line m b) :=
    ⟨fun _ _ h _ ha hb => h hb ha⟩
  exact hd.forall hb hc hne hi hi'

theorem body_subset_line (P : Plan) (m : Module) (b : BlockId) : m.body b ⊆ P.line m b :=
  subset_append_right _ _

theorem phis_subset_line (P : Plan) (m : Module) (b : BlockId) : m.phis b ⊆ P.line m b := by
  intro i hi
  simp [Plan.line,hi]

theorem block_subset_line (P : Plan) (m : Module) (b : BlockId) :
    (m.block b).instrs ⊆ P.line m b := by
  intro i hi
  rw [m.instrs_eq_phis_append] at hi
  rcases mem_append.mp hi with hi | hi
  · exact phis_subset_line P m b hi
  · exact body_subset_line P m b hi

theorem not_available (hF : Formed m f e) (hP : Promotes m m' f e P) (hb : m.Reaches e b)
    (hl : P.line m b = pre ++ i :: post) : ¬ Available m (P.line m) e b pre i := by
  have hbl := hF.mem_layout hb
  rintro (hi | ⟨c,hc,hd,hi⟩)
  · have hn := hP.line_nodup hbl
    rw [hl,nodup_append] at hn
    exact hn.2.2 i hi i (by simp) rfl
  · exact hc (hP.block_unique (hF.mem_layout (hd.reaches hb)) hbl hi (by simp [hl]))

theorem available_value (hP : Promotes m m' f e P) (hb : m.Reaches e b)
    (hpre : pre <+: P.line m b) (hl : Available m (P.line m) e b pre l)
    (hload : (P.loadOf? m l).isSome) (hj : P.value l = .instr j) :
    Available m (P.line m) e b pre j := by
  rcases hl with hl | ⟨c,hc,hd,hl⟩
  · obtain ⟨p1,p2,rfl⟩ := append_of_mem hl
    obtain ⟨post,hpost⟩ := hpre
    have hav := hP.value_available b hb p1 l (p2 ++ post) (by simp [← hpost]) hload j hj
    exact hav.mono fun x hx => by simp [hx]
  · obtain ⟨p1,p2,hline⟩ := append_of_mem hl
    have hav := hP.value_available c (hd.reaches hb) p1 l p2 hline hload j hj
    exact hav.trans hb (.inr ⟨hc,hd,fun x hx => by simp [hline,hx]⟩)

theorem available_subst (hP : Promotes m m' f e P) (hb : m.Reaches e b)
    (hpre : pre <+: P.line m b) {v : Operand}
    (hv : ∀ l, v = .instr l → Available m (P.line m) e b pre l) (hj : P.subst m v = .instr j) :
    Available m (P.line m) e b pre j := by
  cases v with
  | instr l =>
    simp only [Plan.subst] at hj
    split at hj
    · rename_i hload
      exact hP.available_value hb hpre (hv l rfl) hload hj
    · obtain rfl := Operand.instr.inj hj
      exact hv _ rfl
  | _ => simp [Plan.subst] at hj

/-! The code after promotion. -/

theorem keeps_phi (hP : Promotes m m' f e P) (hi : (m.instr i).op = .phi) : P.keeps m i = true := by
  rw [Plan.keeps_iff]
  refine ⟨?_,by simp [Plan.loadOf?,hi],by simp [Plan.storeOf?,hi]⟩
  by_contra hp
  have := (hP.alloca i (by simpa using hp)).2
  rw [hi] at this
  cases this

theorem phis_eq (hF : Formed m f e) (hP : Promotes m m' f e P) (hb : b ∈ (m.func f).layout) :
    m'.phis b = m.phis b ++ P.newPhis b := by
  rw [Module.phis,hP.block b hb,takeWhile_append_of_pos]
  · have hnil : ((m.body b).filter (P.keeps m)).takeWhile
        (fun i => decide ((m'.instr i).op = .phi)) = [] := by
      cases hl : (m.body b).filter (P.keeps m) with
      | nil => rfl
      | cons i is =>
        have hi : i ∈ (m.body b).filter (P.keeps m) := by simp [hl]
        obtain ⟨hi,hk⟩ := mem_filter.mp hi
        have hop := (hP.instr i (Module.mem_instrs_iff.mpr ⟨b,hb,m.body_subset b hi⟩) hk).1
        rw [takeWhile_cons_of_neg]
        simpa [hop] using hF.not_phi b hb i hi
    rw [hnil,append_nil]
  · intro i hi
    rcases mem_append.mp hi with hi | hi
    · have hop := Module.op_of_mem_phis hi
      have := (hP.instr i (Module.mem_instrs_iff.mpr ⟨b,hb,m.phis_subset b hi⟩)
        (hP.keeps_phi hop)).1
      simpa [hop] using this
    · simpa using hP.newPhi b hb i hi

theorem body_eq (hF : Formed m f e) (hP : Promotes m m' f e P) (hb : b ∈ (m.func f).layout) :
    m'.body b = (m.body b).filter (P.keeps m) := by
  rw [Module.body,hP.phis_eq hF hb,hP.block b hb,drop_left]

end Promotes
def Activation.worth (m : Module) (globals : Table (Option Nat)) (a : Activation)
    (o : Option Operand) : Datum :=
  (o.map (a.eval m globals)).getD .zero

theorem Activation.worth_none (m : Module) (globals : Table (Option Nat)) (a : Activation) :
    a.worth m globals none = .zero := rfl

theorem Feeds.eval {m : Module} {o : Option Operand} {v : Operand} (h : Feeds m o v)
    (globals : Table (Option Nat)) (a : Activation) : a.eval m globals v = a.worth m globals o := by
  rcases h with rfl | ⟨rfl,c,t,rfl,hc⟩
  · rfl
  · simp [Activation.eval,Activation.worth,hc]

structure Pair where
  before : Module
  after : Module
  func : FuncId
  entry : BlockId
  plan : Plan
  globals : Table (Option Nat)
  globals' : Table (Option Nat)

namespace Pair

structure Ok (s : Pair) : Prop where
  runnable : Runnable s.before s.func s.entry
  promotes : Promotes s.before s.after s.func s.entry s.plan

theorem Ok.formed {s : Pair} (hs : s.Ok) : Formed s.before s.func s.entry := hs.runnable.toFormed

/-- A value has been computed when the activation has run `pre` of block `b`. -/
abbrev Avail (s : Pair) (b : BlockId) (pre : List InstrId) (j : InstrId) : Prop :=
  Available s.before (s.plan.line s.before) s.entry b pre j

end Pair

/-- A point of the function: `pre` of block `b` has run, `rest` is to come, and the locals are worth
`V`. -/
structure Point (s : Pair) (b : BlockId) (pre rest : List InstrId)
    (V : InstrId → Option Operand) : Prop where
  reached : s.before.Reaches s.entry b
  line : s.plan.line s.before b = pre ++ rest
  suffix : rest <:+ s.before.body b
  rest_ne : rest ≠ []
  finish : s.plan.through s.before V rest = s.plan.finish b
  fed : LoadsFed s.before s.after s.plan V rest
  available : ∀ x j, V x = some (.instr j) → s.Avail b pre j
  unset : ∀ x, s.plan.promoted x = true → ¬ s.Avail b pre x → V x = none

namespace Point
variable {s : Pair} {b : BlockId} {pre rest : List InstrId} {V : InstrId → Option Operand}
  {i : InstrId}

theorem mem_layout (hs : s.Ok) (h : Point s b pre rest V) : b ∈ (s.before.func s.func).layout :=
  hs.formed.mem_layout h.reached

theorem mem_body (h : Point s b pre (i :: rest) V) : i ∈ s.before.body b :=
  h.suffix.subset (by simp)

theorem mem_instrs (hs : s.Ok) (h : Point s b pre (i :: rest) V) : i ∈ s.before.instrs s.func :=
  hs.formed.mem_instrs h.reached (s.before.body_subset b h.mem_body)

theorem operand_avail (hs : s.Ok) (h : Point s b pre (i :: rest) V) {j : InstrId}
    (hj : .instr j ∈ s.before.operands i) : j ∈ s.before.instrs s.func ∧ s.Avail b pre j := by
  obtain ⟨done,hdone⟩ := h.suffix
  have hpre : pre = s.before.phis b ++ s.plan.newPhis b ++ done := by
    have hline := h.line
    rw [Plan.line,← hdone,← append_assoc] at hline
    exact (append_cancel_right hline).symm
  have hinstrs : (s.before.block b).instrs = (s.before.phis b ++ done) ++ i :: rest := by
    rw [s.before.instrs_eq_phis_append,← hdone,append_assoc]
  have hphi : i ∉ s.before.phis b := by
    intro hi
    exact hs.formed.not_phi b (h.mem_layout hs) i h.mem_body (Module.op_of_mem_phis hi)
  have hav := hs.formed.dominated b h.reached _ i rest hinstrs hphi j hj
  refine ⟨?_,hav.mono_line ?_ (Promotes.block_subset_line s.plan s.before)⟩
  · rcases hav with hj | ⟨c,_,hd,hj⟩
    · exact hs.formed.mem_instrs h.reached (by rw [hinstrs]; exact mem_append_left _ hj)
    · exact hs.formed.mem_instrs (hd.reaches h.reached) hj
  · simp_all

theorem prefix_line (h : Point s b pre rest V) : pre <+: s.plan.line s.before b :=
  ⟨rest,h.line.symm⟩

theorem not_avail (hs : s.Ok) (h : Point s b pre (i :: rest) V) : ¬ s.Avail b pre i :=
  hs.promotes.not_available hs.formed h.reached h.line

theorem avail_append (h : s.Avail b (pre ++ [i]) j) : j = i ∨ s.Avail b pre j := by
  rcases h with h | h
  · rcases mem_append.mp h with h | h
    · exact .inr (.inl h)
    · exact .inl (mem_singleton.mp h)
  · exact .inr (.inr h)

theorem next (hs : s.Ok) (h : Point s b pre (i :: rest) V)
    (hi : (s.before.instr i).op.isTerminator = false) :
    Point s b (pre ++ [i]) rest (s.plan.after s.before V i) where
  reached := h.reached
  line := by simp [h.line]
  suffix := (suffix_cons i rest).trans h.suffix
  rest_ne := by
    rintro rfl
    obtain ⟨is,t,hb,ht,_⟩ := hs.formed.terminated b (h.mem_layout hs)
    have hl := h.suffix
    rw [hb] at hl
    obtain ⟨p,hp⟩ := hl
    have := (append_inj_right' hp rfl)
    simp only [List.cons.injEq,and_true] at this
    rw [this,ht] at hi
    cases hi
  finish := h.finish
  fed := h.fed.2
  available := by
    intro x j hj
    rw [Plan.after] at hj
    split at hj
    · have hav : ∀ l, s.before.operand i 0 = .instr l → s.Avail b pre l := fun l hl =>
        (h.operand_avail hs (Module.mem_operands_of_operand hl (by simp))).2
      exact (hs.promotes.available_subst h.reached h.prefix_line hav
        (Option.some.inj hj)).mono (by simp)
    · exact (h.available x j hj).mono (by simp)
  unset := by
    intro x hx hn
    have hn' : ¬ s.Avail b pre x := fun hav => hn (hav.mono (by simp))
    have hV := h.unset x hx hn'
    rw [Plan.after]
    split
    · rename_i ha
      obtain ⟨_,ho,_⟩ := (Plan.storeOf?_eq_some _ _).mp ha
      exact absurd (h.operand_avail hs (Module.mem_operands_of_operand ho (by simp))).2 hn'
    · exact hV

theorem start (hs : s.Ok) (hb : s.before.Reaches s.entry b) :
    Point s b (s.before.phis b ++ s.plan.newPhis b) (s.before.body b) (s.plan.start b) where
  reached := hb
  line := rfl
  suffix := suffix_refl _
  rest_ne := by
    obtain ⟨is,t,hb,_⟩ := hs.formed.terminated b (hs.formed.mem_layout hb)
    simp [hb]
  finish := (hs.promotes.finish b hb).symm
  fed := hs.promotes.fed b hb
  available := by
    intro x j hj
    by_cases hp : ∃ p ∈ s.plan.newPhis b, s.plan.localOf p = x
    · obtain ⟨p,hp,rfl⟩ := hp
      rw [hs.promotes.start_phi b hb p hp] at hj
      obtain rfl := Operand.instr.inj (Option.some.inj hj)
      exact .inl (by simp [hp])
    · exact .inr ((hs.promotes.start_same b hb x (fun p hm hx => hp ⟨p,hm,hx⟩)).2 j hj)
  unset := by
    intro x hx hn
    by_cases hbe : b = s.entry
    · rw [hbe]
      exact hs.promotes.start_entry x
    · refine absurd (.inr ⟨s.entry,Ne.symm hbe,.entry _ _ _,?_⟩) hn
      exact Promotes.body_subset_line _ _ _ (hs.promotes.alloca x hx).1

end Point

/-- Where two activations started: the heaps then, and how their objects were paired. -/
structure Origin where
  heap : Heap
  heap' : Heap
  pairing : Pairing

/-- Two activations at the same point; the locals live in the objects `obj`. -/
structure Match (s : Pair) (s₀ : Origin) (ι : Pairing) (w : World) (a : Activation) (w' : World)
    (a' : Activation) (pre : List InstrId) (V : InstrId → Option Operand)
    (obj : InstrId → Nat) : Prop where
  point : Point s a.block pre a.rest V
  world : w.Rel ι w'
  calls : w'.calls = w.calls
  globals : w.globals = s.globals
  globals' : w'.globals = s.globals'
  evolves : Evolves s₀.pairing ι s₀.heap s₀.heap' w.heap w'.heap
  func : a.func = s.func
  func' : a'.func = s.func
  args : ∀ n, (a.args.getD n .zero).Rel ι (a'.args.getD n .zero)
  block : a'.block = a.block
  rest : a'.rest = a.rest.filter (s.plan.keeps s.before)
  regs : ∀ l ∈ s.before.instrs s.func, s.Avail a.block pre l →
    s.plan.promoted l = false → (s.before.instr l).type.isVoid = false →
    (a.registers.get l).Rel ι (a'.eval s.after s.globals' (s.plan.subst s.before (.instr l)))
  /-- What has no value to speak of holds zero. -/
  blank : ∀ i ∈ s.before.instrs s.func,
    (s.plan.storeOf? s.before i).isSome ∨ (s.before.instr i).op.isTerminator = true →
    a.registers.get i = .zero ∧ a'.registers.get i = .zero
  address : ∀ x, s.plan.promoted x = true → (s.before.instr x).type.isVoid = false →
    s.Avail a.block pre x →
    a.registers.get x = .ofAddress ⟨some (obj x),0⟩
  object : ∀ x, s.plan.promoted x = true → s.Avail a.block pre x →
    s₀.heap.size ≤ obj x ∧ obj x < w.heap.size ∧ (∀ p, ¬ ι (obj x) p) ∧
      1 ≤ (w.heap.get (obj x)).length ∧
      ((w.heap.get (obj x)).cells.get 0).Rel ι (a'.worth s.after s.globals' (V x))
  distinct : ∀ x y, s.plan.promoted x = true → s.plan.promoted y = true → s.Avail a.block pre x →
    s.Avail a.block pre y → obj x = obj y → x = y

end CMinusF
