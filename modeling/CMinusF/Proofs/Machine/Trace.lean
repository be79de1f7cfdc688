import CMinusF.Proofs.Machine.Calls
import Mathlib.Logic.Relation

/-! The states that a run passes, with the instructions that every activation has executed. -/
namespace CMinusF.Run
variable {m : Module} {t s : Trace}

/-- A state of a run and the instructions that each activation has executed, those of the active one
first. -/
structure Trace where
  state : Running
  executed : List (List InstrId)

/-- What has been executed once the instruction `i`, first in line in `s`, has led to `t`. A call
has been executed when it has returned. -/
def record (s t : Running) (i : InstrId) (ls : List (List InstrId)) : List (List InstrId) :=
  if s.callers.length < t.callers.length then [] :: ls
  else if t.callers.length < s.callers.length then
    match s.callers, ls with
    | c::_, _::l::ls => (c.rest.head?.toList ++ l) :: ls
    | _, _ => ls
  else
    match ls with
    | l::ls => (i :: l) :: ls
    | [] => []

def Trace.next? (m : Module) (s : Trace) : Option Trace :=
  match s.state.active.rest with
  | [] => none
  | i::_ =>
    match step m s.state i with
    | .running t => some ⟨t,record s.state t i s.executed⟩
    | _ => none

def Reaches (m : Module) : Trace → Trace → Prop :=
  Relation.ReflTransGen fun s t => s.next? m = some t

def Trace.start (m : Module) (w : World) (f : FuncId) (args : List Datum) : Trace :=
  ⟨⟨countCall w (m.func f).name,activation m w.globals f args,[]⟩,[[]]⟩

section
variable {w : World} {a : Activation} {cs : List Activation} {l : List InstrId}
  {ls : List (List InstrId)} {i : InstrId} {r : List InstrId}

inductive Follows (m : Module) (w : World) (a : Activation) (cs : List Activation)
    (l : List InstrId) (ls : List (List InstrId)) (i : InstrId) : Trace → Prop where
  | go {w' : World} {a' : Activation} : action m w a i = .go w' a' →
      Follows m w a cs l ls i ⟨⟨w',a',cs⟩,(i :: l) :: ls⟩
  | call {w' : World} {c : Activation} : action m w a i = .call w' c →
      Follows m w a cs l ls i ⟨⟨w',c,a :: cs⟩,[] :: l :: ls⟩
  | back {v : Datum} {c : Activation} {cs' : List Activation} {l' : List InstrId}
      {ls' : List (List InstrId)} :
      action m w a i = .done v → cs = c :: cs' → ls = l' :: ls' →
      Follows m w a cs l ls i ⟨⟨w,c.advance m v,cs'⟩,(c.rest.head?.toList ++ l') :: ls'⟩

theorem follows_of_next? (h : a.rest = i :: r) (hlen : ls.length = cs.length)
    (ht : Trace.next? m ⟨⟨w,a,cs⟩,l :: ls⟩ = some t) : Follows m w a cs l ls i t := by
  simp only [Trace.next?,h,step_eq] at ht
  cases ha : action m w a i with
  | go w' a' =>
    simp only [ha,record,Nat.lt_irrefl,Option.some.injEq] at ht
    exact ht ▸ .go ha
  | call w' c =>
    simp only [ha,record,List.length_cons,Nat.lt_succ_self,Option.some.injEq] at ht
    exact ht ▸ .call ha
  | fault w' e =>
    simp only [ha] at ht
    cases ht
  | done v =>
    rw [ha] at ht
    cases cs with
    | nil => cases ht
    | cons c cs' =>
      cases ls with
      | nil => cases hlen
      | cons l' ls' =>
        have hn : ¬ cs'.length + 1 < cs'.length := by omega
        simp only [giveBack,record,List.length_cons,hn,Nat.lt_succ_self,Option.some.injEq] at ht
        exact ht ▸ .back ha rfl rfl

end

theorem Reaches.keep {P : Trace → Prop} (hstep : ∀ s t, P s → s.next? m = some t → P t)
    (h : Reaches m s t) (hs : P s) : P t := by
  induction h with
  | refl => exact hs
  | tail _ hn ih => exact hstep _ _ ih hn

theorem Reaches.next {u : Trace} (h : Reaches m s t) (hn : t.next? m = some u) :
    Reaches m s u := h.tail hn

/-- How a run may end, when in every state that it passes there is an instruction to execute, which
faults in no way but those that `A` allows. -/
theorem run_of_reaches {s0 : Trace} {A : Trace → InstrId → Fault → Prop}
    (hrest : ∀ s, Reaches m s0 s → s.state.active.rest ≠ [])
    (hfault : ∀ s i r w sites e, Reaches m s0 s → s.state.active.rest = i :: r →
      step m s.state i = .faulted w (.fault sites e) → A s i e) (n : Nat) (hs : Reaches m s0 s) :
    match (run m n s.state).2.2 with
    | .ok _ => True
    | .error (.fault _ e) => e = .stepLimit ∨ ∃ t i, Reaches m s0 t ∧
      t.state.active.rest.head? = some i ∧ A t i e
    | .error _ => False := by
  induction n generalizing s with
  | zero =>
    obtain ⟨⟨w,a,cs⟩,ls⟩ := s
    cases hr : a.rest with
    | nil => exact absurd hr (hrest _ hs)
    | cons i r =>
      rw [run_zero hr]
      exact .inl rfl
  | succ n ih =>
    obtain ⟨⟨w,a,cs⟩,ls⟩ := s
    cases hr : a.rest with
    | nil => exact absurd hr (hrest _ hs)
    | cons i r =>
      rw [run.eq_def]
      simp only [hr]
      have hnext : ∀ t, step m ⟨w,a,cs⟩ i = .running t →
          Reaches m s0 ⟨t,record ⟨w,a,cs⟩ t i ls⟩ := by
        intro t ht
        refine hs.next ?_
        simp only [Trace.next?,hr,ht]
      cases hst : step m ⟨w,a,cs⟩ i with
      | running t => exact ih (hnext t hst)
      | returned w' v => trivial
      | faulted w' e =>
        have hf : ∃ sites e', e = .fault sites e' := by
          rw [step_eq] at hst
          cases ha : action m w a i with
          | go => rw [ha] at hst; cases hst
          | call => rw [ha] at hst; cases hst
          | done => rw [ha] at hst; cases cs <;> cases hst
          | fault =>
            rw [ha] at hst
            cases hst
            exact ⟨_,_,rfl⟩
        grind

end CMinusF.Run

namespace CMinusF

theorem Machine.main_eq {f : FuncId} (hf : m.func? "main" = some f) (hp : (m.func f).params = [])
    (hl : (m.func f).layout ≠ []) (mc : Machine) :
    mc.main m =
      let (n,w,r) := Run.run m mc.budget (Run.Trace.start m mc.world f []).state
      (⟨n,w⟩,r.map fun v => Numeric.wrap32 v.int) := by
  have hbody : (m.func f).isDeclaration = false := by simpa [Func.isDeclaration] using hl
  simp only [main,call,hf,hp,callFunc,hbody,List.length_nil,ne_eq,not_true_eq_false,↓reduceIte,
    Bool.false_eq_true,Run.Trace.start,Run.countCall]
  obtain ⟨n,w,r⟩ := Run.run m mc.budget _
  cases r <;> rfl

end CMinusF
