import CMinusF.Proofs.Machine.BigStep
import CMinusF.Proofs.Machine.Registers

/-! Activations of well-formed functions: where they stand, what the instruction first in line can
do, and what is known of the values computed so far. -/
namespace CMinusF
open Run List
variable {m : Module} {e b : BlockId} {done : List InstrId} {i j : InstrId} {f : FuncId}

/-- The instructions `done` of the block have run, its phis among them; at least one has not. -/
structure Stands (m : Module) (f : FuncId) (e : BlockId) (a : Activation)
    (done : List InstrId) : Prop where
  func : a.func = f
  reached : m.Reaches e a.block
  split : (m.block a.block).instrs = done ++ a.rest
  phis : m.phis a.block <+: done
  rest : a.rest ≠ []

theorem Available.append {line : BlockId → List InstrId}
    (h : Available m line e b (done ++ [i]) j) : j = i ∨ Available m line e b done j := by
  rcases h with h | h
  · rcases mem_append.mp h with h | h
    · exact .inr (.inl h)
    · exact .inl (mem_singleton.mp h)
  · exact .inr (.inr h)

theorem Formed.body_ne_nil (h : Formed m f e) (hb : b ∈ (m.func f).layout) :
    m.body b ≠ [] := by
  obtain ⟨is,t,hbody,-⟩ := h.terminated b hb
  simp_all

theorem Formed.activation_eq (h : Formed m f e) (globals : Table (Option Nat)) (args : List Datum) :
    activation m globals f args = Activation.enter m globals ⟨f,args,.empty,default,[]⟩ none e := by
  rw [activation,Func.entryBlock?,h.entry]
  rfl

namespace Stands
variable {c : BlockId} {a : Activation} {r : List InstrId}

section
variable (h : Stands m f e a done)
include h

theorem mem_layout (hF : Formed m f e) : a.block ∈ (m.func f).layout := hF.mem_layout h.reached

theorem body : ∃ q, m.body a.block = q ++ a.rest := by
  obtain ⟨q,rfl⟩ := h.phis
  refine ⟨q,?_⟩
  have hs := h.split
  rw [m.instrs_eq_phis_append,append_assoc] at hs
  exact append_cancel_left hs

theorem mem_body (hr : a.rest = i :: r) : i ∈ m.body a.block := by
  obtain ⟨q,hq⟩ := h.body
  rw [hq,hr]
  simp

theorem mem_block (hr : a.rest = i :: r) : i ∈ (m.block a.block).instrs :=
  m.body_subset _ (h.mem_body hr)

theorem mem_instrs (hF : Formed m f e) (hr : a.rest = i :: r) : i ∈ m.instrs f :=
  hF.mem_instrs h.reached (h.mem_block hr)

theorem not_phi (hF : Formed m f e) (hr : a.rest = i :: r) : (m.instr i).op ≠ .phi :=
  hF.not_phi _ (h.mem_layout hF) i (h.mem_body hr)

theorem last (hF : Formed m f e) (hr : a.rest = i :: r)
    (ht : (m.instr i).op.isTerminator = true) : r = [] :=
  hF.terminator_last (h.mem_layout hF) (hr ▸ h.split) ht

theorem available (hF : Formed m f e) (hr : a.rest = i :: r) (hj : .instr j ∈ m.operands i) :
    Available m (fun c => (m.block c).instrs) e a.block done j :=
  hF.dominated _ h.reached done i r (hr ▸ h.split)
    (fun hp => h.not_phi hF hr (Module.op_of_mem_phis hp)) j hj

end

theorem start (hF : Formed m f e) (globals : Table (Option Nat)) (args : List Datum) :
    Stands m f e (activation m globals f args) (m.phis e) := by
  rw [hF.activation_eq]
  exact ⟨rfl,.refl m e,m.instrs_eq_phis_append e,prefix_rfl,hF.body_ne_nil hF.entry_mem⟩

theorem enter (h : Stands m f e a done) (hF : Formed m f e) (globals : Table (Option Nat))
    (hc : c ∈ m.succs a.block) :
    Stands m f e (a.enter m globals (some a.block) c) (m.phis c) where
  func := h.func
  reached := h.reached.step hc
  split := m.instrs_eq_phis_append c
  phis := prefix_rfl
  rest := hF.body_ne_nil (hF.closed _ (h.mem_layout hF) c hc)

theorem next (h : Stands m f e a done) (hF : Formed m f e) (hr : a.rest = i :: r)
    (ht : (m.instr i).op.isTerminator = false) (v : Datum) :
    Stands m f e (a.advance m v) (done ++ [i]) := by
  have hb := a.block_advance m v
  have hr' := Activation.rest_advance (m := m) hr v
  refine ⟨(a.func_advance m v).trans h.func,hb ▸ h.reached,?_,
    hb ▸ h.phis.trans (prefix_append _ _),?_⟩
  · rw [hb,hr',append_assoc,h.split,hr]
    rfl
  · -- the last instruction of a block is a terminator
    rw [hr']
    rintro rfl
    obtain ⟨q,hq⟩ := h.body
    obtain ⟨is,t,hbody,hterm,-⟩ := hF.terminated _ (h.mem_layout hF)
    simp_all

theorem action_cases (h : Stands m f e a done) (hF : Runnable m f e) (hr : a.rest = i :: r)
    (w : World) :
    ((m.instr i).op = .ret ∧ action m w a i =
      .done (((m.operands i).head?.map (a.eval m w.globals)).getD .zero)) ∨
    ((m.instr i).op = .br ∧ ∃ c ∈ m.succs a.block,
      branchTarget (a.eval m w.globals) (m.operands i) = .block c ∧
      action m w a i = .go w (a.enter m w.globals (some a.block) c)) ∨
    ((m.instr i).op = .call ∧ ∃ g vs, m.operands i = .func g :: vs ∧ m.callee? i = some g ∧
      m.callArgs i = vs ∧ g ∈ m.funcs) ∨
    ((m.instr i).op.isTerminator = false ∧ (m.instr i).op ≠ .call ∧
      action m w a i = match Operation.execute (m.instr i)
      ((m.instr i).operands.map (a.eval m w.globals)) w.heap with
        | (heap,.ok v) => .go { w with heap := heap } (a.advance m v)
        | (heap,.error x) => .fault { w with heap := heap } x) := by
  by_cases hret : (m.instr i).op = .ret
  · exact .inl ⟨hret,action_ret hret⟩
  by_cases hbr : (m.instr i).op = .br
  · refine .inr (.inl ⟨hbr,?_⟩)
    obtain ⟨c,hc,htarget⟩ : ∃ c ∈ m.succs a.block,
        branchTarget (a.eval m w.globals) (m.operands i) = .block c := by
      rcases hF.branch _ (h.mem_layout hF.toFormed) i (h.mem_body hr) hbr
        with ⟨c,hc,hops⟩ | ⟨v,c,hc,d,hd,hops⟩
      · exact ⟨c,hc,by rw [hops]; rfl⟩
      · rw [hops]
        by_cases hodd : isOdd (a.eval m w.globals v).int
        · exact ⟨c,hc,if_pos hodd⟩
        · exact ⟨d,hd,if_neg hodd⟩
    exact ⟨c,hc,htarget,action_br_to hbr htarget⟩
  by_cases hcall : (m.instr i).op = .call
  · refine .inr (.inr (.inl ⟨hcall,?_⟩))
    obtain ⟨g,vs,hops,hg⟩ := hF.call i (h.mem_instrs hF.toFormed hr) hcall
    refine ⟨g,vs,hops,?_,?_,hg⟩
    · rw [Module.callee?,hcall,hops]
    · rw [Module.callArgs,hcall,hops]
      rfl
  · refine .inr (.inr (.inr ⟨?_,hcall,action_execute hret hbr hcall⟩))
    cases hop : (m.instr i).op <;> first | rfl | exact absurd hop hret | exact absurd hop hbr

end Stands

def Known (m : Module) (e : BlockId) (Q : InstrId → Datum → Prop) (a : Activation)
    (done : List InstrId) : Prop :=
  ∀ j, Available m (fun c => (m.block c).instrs) e a.block done j →
    (m.instr j).type.isVoid = false → Q j (a.registers.get j)

namespace Known
variable {c : BlockId} {Q Q' : InstrId → Datum → Prop} {a : Activation} {r : List InstrId}

theorem start (hF : Formed m f e) (globals : Table (Option Nat)) (args : List Datum)
    (hphi : ∀ p ∈ m.phis e, (m.instr p).type.isVoid = false → Q p .zero) :
    Known m e Q (activation m globals f args) (m.phis e) := by
  rw [hF.activation_eq]
  intro j hj hv
  rcases hj with hj | ⟨c,hc,hd,-⟩
  · rw [Activation.get_enter,if_pos hj]
    exact hphi j hj hv
  · exact absurd (mem_singleton.mp (hd _ .start)) hc

/-- The instruction first in line computes a value; what is known of the others may be said in other
words. -/
theorem next (h : Known m e Q a done) (hr : a.rest = i :: r)
    (hQ : ∀ j, j ≠ i → ∀ v, Q j v → Q' j v) {v : Datum}
    (hv : (m.instr i).type.isVoid = false → Q' i v) :
    Known m e Q' (a.advance m v) (done ++ [i]) := by
  intro j hj hvoid
  rw [Activation.block_advance] at hj
  rw [Activation.get_advance hr]
  by_cases hij : i = j
  · subst hij
    rw [if_pos ⟨hvoid,rfl⟩]
    exact hv hvoid
  · rw [if_neg fun hh => hij hh.2]
    exact hQ j (Ne.symm hij) _ (h j (hj.append.resolve_left fun hh => hij hh.symm) hvoid)

/-- A block that is entered knows what was known at the end of the block before, and its phis. -/
theorem enter (h : Known m e Q a done) (hF : Formed m f e) (hs : Stands m f e a done)
    (hr : a.rest = i :: r) (ht : (m.instr i).op.isTerminator = true) (globals : Table (Option Nat))
    (hc : c ∈ m.succs a.block) (hQ : ∀ j, j ∉ m.phis c → ∀ v, Q j v → Q' j v)
    (hi : (m.instr i).type.isVoid = false → Q i (a.registers.get i))
    (hphi : ∀ p ∈ m.phis c, (m.instr p).type.isVoid = false →
      Q' p (a.phiValue m globals (some a.block) p)) :
    Known m e Q' (a.enter m globals (some a.block) c) (m.phis c) := by
  intro j hj hvoid
  rw [Activation.get_enter]
  by_cases hp : j ∈ m.phis c
  · rw [if_pos hp]
    exact hphi j hp hvoid
  · rw [if_neg hp]
    have hav : Available m (fun c => (m.block c).instrs) e a.block (m.block a.block).instrs j :=
      hj.of_succ hp hc
    rw [hs.split,hr,hs.last hF hr ht] at hav
    refine hQ j hp _ ?_
    rcases hav.append with rfl | hav
    · exact hi hvoid
    · exact h j hav hvoid

end Known
end CMinusF
