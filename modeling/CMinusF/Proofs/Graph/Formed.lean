import CMinusF.Flow.Purity
import CMinusF.Proofs.Flow.Trail

/-! Well-formed functions: blocks are put together as the machine expects, and operands have been
computed when they are read. -/
namespace CMinusF
open List
variable {m : Module} {b : BlockId} {i p : InstrId} {f : FuncId} {ps : List (Operand × BlockId)}
  {pre post : List InstrId}

namespace Module

def body (m : Module) (b : BlockId) : List InstrId := (m.block b).instrs.drop (m.phis b).length

theorem instrs_eq_phis_append (m : Module) (b : BlockId) :
    (m.block b).instrs = m.phis b ++ m.body b := by
  have h := takeWhile_prefix (fun i => decide ((m.instr i).op = .phi)) (l := (m.block b).instrs)
  conv => lhs; rw [← take_append_drop (m.phis b).length (m.block b).instrs]
  congr 1
  exact (prefix_iff_eq_take.mp h).symm

theorem op_of_mem_phis (h : i ∈ m.phis b) : (m.instr i).op = .phi := by
  have := all_eq_true.mp all_takeWhile i h
  simpa using this

theorem phis_subset (m : Module) (b : BlockId) : m.phis b ⊆ (m.block b).instrs := by
  rw [instrs_eq_phis_append]
  exact subset_append_left _ _

theorem body_subset (m : Module) (b : BlockId) : m.body b ⊆ (m.block b).instrs := drop_subset _ _

theorem phis_of_instrs {xs ys : List InstrId} (h : (m.block b).instrs = xs ++ ys)
    (hx : ∀ i ∈ xs, (m.instr i).op = .phi) (hy : ∀ i ∈ ys, (m.instr i).op ≠ .phi) :
    m.phis b = xs := by
  rw [phis,h,takeWhile_append_of_pos (by simpa using hx)]
  cases ys with
  | nil => simp
  | cons y ys => rw [takeWhile_cons_of_neg (by simpa using hy y mem_cons_self),append_nil]

theorem phis_congr {n : Module} (hb : (n.block b).instrs = (m.block b).instrs)
    (hop : ∀ i ∈ (m.block b).instrs, (n.instr i).op = (m.instr i).op) : n.phis b = m.phis b := by
  rw [phis,phis,hb]
  generalize (m.block b).instrs = is at hop
  induction is with
  | nil => rfl
  | cons i is ih =>
    rw [takeWhile_cons,takeWhile_cons,hop i mem_cons_self,
      ih fun j hj => hop j (mem_cons_of_mem _ hj)]

theorem mem_body_of_not_phi (hi : i ∈ (m.block b).instrs) (hop : (m.instr i).op ≠ .phi) :
    i ∈ m.body b := by
  rw [instrs_eq_phis_append,mem_append] at hi
  exact hi.resolve_left fun h => hop (op_of_mem_phis h)

theorem mem_operands_of_operand {k : Nat} {v : Operand} (h : m.operand i k = v)
    (hv : v ≠ .hole) : v ∈ m.operands i := by
  rw [operand,getD_eq_getElem?_getD] at h
  cases hx : (m.operands i)[k]? with
  | none => exact absurd (by rw [← h,hx]; rfl) hv
  | some w =>
    rw [hx] at h
    exact h ▸ mem_of_getElem? hx

theorem mem_instrs_iff :
    i ∈ m.instrs f ↔ ∃ b ∈ (m.func f).layout, i ∈ (m.block b).instrs := mem_flatMap

/-! Phis as lists of pairs. -/

/-- The operands of a phi that takes these values from these blocks. -/
abbrev arms (ps : List (Operand × BlockId)) : List Operand := ps.flatMap fun x => [x.1,.block x.2]

theorem map_arms {g : Operand → Operand} (hg : ∀ b, g (.block b) = .block b)
    (ps : List (Operand × BlockId)) :
    (arms ps).map g = arms (ps.map fun x => (g x.1,x.2)) := by
  simp only [arms,map_flatMap,flatMap_map,map_cons,map_nil,hg]

theorem pairs_flatMap (ps : List (Operand × BlockId)) :
    pairs (arms ps) = ps.map fun x => (x.1,.block x.2) := by
  induction ps with
  | nil => rfl
  | cons x ps ih => simp [pairs,ih]

theorem incoming_of_operands (h : m.operands p = arms ps) :
    (m.incoming p).map (·.2) = (ps.map (·.2)).map Operand.block := by
  rw [incoming,h,pairs_flatMap,map_map,map_map]
  rfl

theorem incomingFor?_of_operands (h : m.operands p = arms ps) (q : BlockId) :
    m.incomingFor? p q = (ps.find? (·.2 = q)).map (·.1) := by
  rw [incomingFor?,incoming,h,pairs_flatMap,find?_map,Option.map_map]
  simp only [Function.comp_def,Operand.block.injEq]

theorem mem_operands_of_incomingFor? {q : BlockId} {v : Operand} (h : m.incomingFor? i q = some v) :
    v ∈ m.operands i := by
  have key : ∀ vs : List Operand, ∀ x ∈ pairs vs, x.1 ∈ vs := by
    intro vs
    induction vs using pairs.induct with
    | case1 v b rest ih =>
      intro x hx
      rcases mem_cons.mp hx with rfl | hx
      · exact mem_cons_self
      · exact mem_cons_of_mem _ (mem_cons_of_mem _ (ih x hx))
    | case2 vs hvs =>
      intro x hx
      rw [pairs] at hx
      · cases hx
      · exact hvs
  obtain ⟨x,hx,rfl⟩ := Option.map_eq_some_iff.mp h
  exact key _ x (mem_of_find?_eq_some hx)

end Module

/-- A value has been computed when the instructions `done` of block `b` have run, if it is one of
them or stands in another block that dominates `b`. -/
def Available (m : Module) (line : BlockId → List InstrId) (e b : BlockId) (done : List InstrId)
    (j : InstrId) : Prop :=
  j ∈ done ∨ ∃ c, c ≠ b ∧ m.Dominates e c b ∧ j ∈ line c

namespace Available
variable {line : BlockId → List InstrId} {e c : BlockId} {done done' : List InstrId} {j : InstrId}

theorem mono (h : Available m line e b done j) (hs : done ⊆ done') : Available m line e b done' j :=
  h.imp_left (@hs j)

theorem mono_line {line' : BlockId → List InstrId} (h : Available m line e b done j)
    (hs : done ⊆ done') (hl : ∀ c, line c ⊆ line' c) : Available m line' e b done' j := by
  rcases h with h | ⟨c,hc,hd,hj⟩
  · exact .inl (hs h)
  · exact .inr ⟨c,hc,hd,hl c hj⟩

/-- What is available at the end of a block, or of a successor but not in it, is available in the
other. -/
theorem of_succ (h : Available m line e c done j) (hj : j ∉ done) (hc : c ∈ m.succs b) :
    Available m line e b (line b) j := by
  rcases h with h | ⟨d,hd,hdom,hm⟩
  · exact absurd h hj
  · by_cases hdb : d = b
    · exact .inl (hdb ▸ hm)
    · exact .inr ⟨d,hdb,hdom.of_succ hc hd,hm⟩

/-- What is available before an instruction that is available is so, too. -/
theorem trans (hb : m.Reaches e b) (h : Available m line e c pre j)
    (hl : (c = b ∧ pre ⊆ done) ∨ (c ≠ b ∧ m.Dominates e c b ∧ pre ⊆ line c)) :
    Available m line e b done j := by
  rcases hl with ⟨rfl,hs⟩ | ⟨hne,hdom,hs⟩
  · exact h.mono hs
  · rcases h with h | ⟨d,hd,hdc,hj⟩
    · exact .inr ⟨c,hne,hdom,hs h⟩
    · refine .inr ⟨d,?_,hdc.trans hdom,hj⟩
      rintro rfl
      exact hne (hdom.antisymm hdc hb)

end Available

/-- A function whose blocks and operands are where they have to be. -/
structure Formed (m : Module) (f : FuncId) (e : BlockId) : Prop where
  entry : (m.func f).layout.head? = some e
  owned : ∀ b ∈ (m.func f).layout, b.func = f
  layout_nodup : (m.func f).layout.Nodup
  nodup : (m.instrs f).Nodup
  parent : ∀ b ∈ (m.func f).layout, ∀ i ∈ (m.block b).instrs, (m.instr i).parent = some b
  not_phi : ∀ b ∈ (m.func f).layout, ∀ i ∈ m.body b, (m.instr i).op ≠ .phi
  terminated : ∀ b ∈ (m.func f).layout, ∃ is t, m.body b = is ++ [t] ∧
    (m.instr t).op.isTerminator = true ∧
    ∀ i ∈ is, (m.instr i).op.isTerminator = false
  closed : ∀ b ∈ (m.func f).layout, ∀ c ∈ m.succs b, c ∈ (m.func f).layout
  mirrored : ∀ b ∈ (m.func f).layout, ∀ c ∈ (m.func f).layout, b ∈ m.preds c ↔ c ∈ m.succs b
  pairs : ∀ b ∈ (m.func f).layout, ∀ p ∈ m.phis b,
    ∃ ps : List (Operand × BlockId), m.operands p = ps.flatMap fun x => [x.1,.block x.2]
  valued : ∀ i ∈ m.instrs f, ∀ j, .instr j ∈ m.operands i → (m.instr j).type.isVoid = false
  home : ∀ i ∈ m.instrs f, ∀ j, .instr j ∈ m.operands i →
    ∃ b, (m.instr j).parent = some b ∧ b.func = f
  store_void : ∀ i ∈ m.instrs f, (m.instr i).op = .store → (m.instr i).type.isVoid = true
  /-- Operands of what is reached are there; those of a phi at the end of the block they come from.
  -/
  dominated : ∀ b, m.Reaches e b → ∀ pre i post, (m.block b).instrs = pre ++ i :: post →
    i ∉ m.phis b →
    ∀ j, .instr j ∈ m.operands i → Available m (fun c => (m.block c).instrs) e b pre j
  phi_dominated : ∀ b, m.Reaches e b → ∀ p ∈ m.phis b, ∀ q, m.Reaches e q → ∀ j,
    (Operand.instr j,Operand.block q) ∈ m.incoming p →
    Available m (fun c => (m.block c).instrs) e q (m.block q).instrs j

/-- A function that the machine can run without getting stuck on its shape. -/
structure Runnable (m : Module) (f : FuncId) (e : BlockId) : Prop extends Formed m f e where
  branch : ∀ b ∈ (m.func f).layout, ∀ i ∈ m.body b, (m.instr i).op = .br →
    (∃ c ∈ m.succs b, m.operands i = [.block c]) ∨
      ∃ v, ∃ c ∈ m.succs b, ∃ d ∈ m.succs b, m.operands i = [v,.block c,.block d]
  call : ∀ i ∈ m.instrs f, (m.instr i).op = .call →
    ∃ g vs, m.operands i = .func g :: vs ∧ g ∈ m.funcs

namespace Formed
variable {e : BlockId}

variable (h : Formed m f e)
include h

theorem entry_mem : e ∈ (m.func f).layout := mem_of_mem_head? (by simp [h.entry])

theorem mem_layout (hb : m.Reaches e b) : b ∈ (m.func f).layout :=
  hb.induction (P := (· ∈ (m.func f).layout)) h.entry_mem fun b c _ hb hc => h.closed b hb c hc

theorem mem_instrs (hb : m.Reaches e b) (hi : i ∈ (m.block b).instrs) : i ∈ m.instrs f :=
  Module.mem_instrs_iff.mpr ⟨b,h.mem_layout hb,hi⟩

theorem mem_phis (hb : b ∈ (m.func f).layout) (hi : i ∈ (m.block b).instrs)
    (hop : (m.instr i).op = .phi) : i ∈ m.phis b := by
  rw [Module.instrs_eq_phis_append] at hi
  exact (mem_append.mp hi).resolve_right fun hi => h.not_phi b hb i hi hop

theorem op_before_phi (hb : b ∈ (m.func f).layout)
    (hs : (m.block b).instrs = pre ++ i :: post) (hop : (m.instr i).op = .phi) :
    ∀ j ∈ pre, (m.instr j).op = .phi := by
  rw [Module.instrs_eq_phis_append] at hs
  intro j hj
  rcases append_eq_append_iff.mp hs with ⟨as,rfl,hbody⟩ | ⟨as,hphis,_⟩
  · exact absurd hop (h.not_phi b hb i (hbody ▸ by simp))
  · exact Module.op_of_mem_phis (hphis ▸ mem_append_left _ hj)

theorem terminator_last (hb : b ∈ (m.func f).layout)
    (hs : (m.block b).instrs = pre ++ i :: post) (hop : (m.instr i).op.isTerminator = true) :
    post = [] := by
  obtain ⟨is,t,hbody,_,his⟩ := h.terminated b hb
  rw [Module.instrs_eq_phis_append,hbody,← append_assoc] at hs
  rcases eq_nil_or_concat post with rfl | ⟨post,u,rfl⟩
  · rfl
  · rw [concat_eq_append,← cons_append,← append_assoc] at hs
    have hi : i ∈ m.phis b ++ is := (append_inj' hs rfl).1 ▸ by simp
    rcases mem_append.mp hi with hi | hi
    · rw [Module.op_of_mem_phis hi] at hop
      cases hop
    · rw [his i hi] at hop
      cases hop

end Formed
end CMinusF
