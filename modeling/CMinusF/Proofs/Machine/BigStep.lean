import CMinusF.Machine.Run
import Mathlib.Order.Nat

/-! Runs that end, one activation at a time: a call is one step of its caller, whatever the callee
does. An activation ends in this sense exactly if the machine gets to the end of it on a large
enough budget. -/
namespace CMinusF.Run
variable {i : InstrId} {r : List InstrId}

/-- What the instruction first in line does, whoever the callers are. -/
inductive Action where
  | go (w : World) (a : Activation)
  | call (w : World) (callee : Activation)
  | done (v : Datum)
  | fault (w : World) (e : Fault)

def branchTarget (eval : Operand → Datum) : List Operand → Operand
  | [c,yes,no] => if isOdd (eval c).int then yes else no
  | v::_ => v
  | [] => .hole

def action (m : Module) (w : World) (a : Activation) (i : InstrId) : Action :=
  let x := m.instr i
  let eval := a.eval m w.globals
  match x.op with
  | .ret => .done ((x.operands.head?.map eval).getD .zero)
  | .br =>
    match branchTarget eval x.operands with
    | .block b => .go w (a.enter m w.globals (some a.block) b)
    | _ => .fault w (.notExecutable x.op.name)
  | .call =>
    match m.callee? i with
    | none => .fault w (.notExecutable x.op.name)
    | some f =>
      let args := (m.callArgs i).map eval
      let w := countCall w (m.func f).name
      if (m.func f).isDeclaration then
        match builtin (m.func f).name args w with
        | (w,.ok v) => .go w (a.advance m v)
        | (w,.error e) => .fault w e
      else .call w (activation m w.globals f args)
  | _ =>
    match Operation.execute x (x.operands.map eval) w.heap with
    | (heap,.ok v) => .go { w with heap := heap } (a.advance m v)
    | (heap,.error e) => .fault { w with heap := heap } e

section
variable {m : Module} {w : World} {a : Activation}

theorem action_ret (h : (m.instr i).op = .ret) :
    action m w a i = .done (((m.instr i).operands.head?.map (a.eval m w.globals)).getD .zero) := by
  simp only [action,h]

theorem action_br (h : (m.instr i).op = .br) :
    action m w a i = match branchTarget (a.eval m w.globals) (m.instr i).operands with
      | .block b => .go w (a.enter m w.globals (some a.block) b)
      | _ => .fault w (.notExecutable Opcode.br.name) := by
  simp only [action,h]

theorem action_br_to (h : (m.instr i).op = .br) {b : BlockId}
    (hb : branchTarget (a.eval m w.globals) (m.instr i).operands = .block b) :
    action m w a i = .go w (a.enter m w.globals (some a.block) b) := by
  rw [action_br h,hb]

theorem action_call (h : (m.instr i).op = .call) :
    action m w a i = match m.callee? i with
      | none => .fault w (.notExecutable Opcode.call.name)
      | some f =>
        if (m.func f).isDeclaration then
          match builtin (m.func f).name ((m.callArgs i).map (a.eval m w.globals))
              (countCall w (m.func f).name) with
          | (w,.ok v) => .go w (a.advance m v)
          | (w,.error e) => .fault w e
        else .call (countCall w (m.func f).name)
          (activation m w.globals f ((m.callArgs i).map (a.eval m w.globals))) := by
  simp only [action,h,countCall]

theorem action_execute (hr : (m.instr i).op ≠ .ret) (hb : (m.instr i).op ≠ .br)
    (hc : (m.instr i).op ≠ .call) :
    action m w a i = match Operation.execute (m.instr i)
    ((m.instr i).operands.map (a.eval m w.globals)) w.heap with
      | (heap,.ok v) => .go { w with heap := heap } (a.advance m v)
      | (heap,.error e) => .fault { w with heap := heap } e := by
  cases h : (m.instr i).op <;>
    first | exact absurd h hr | exact absurd h hb | exact absurd h hc | simp only [action]

end

theorem step_eq (m : Module) (w : World) (a : Activation) (cs : List Activation) (i : InstrId) :
    step m ⟨w,a,cs⟩ i = match action m w a i with
      | .go w a => .running ⟨w,a,cs⟩
      | .call w c => .running ⟨w,c,a :: cs⟩
      | .done v => giveBack m w cs v
      | .fault w e => faultHere m a cs w e := by
  obtain ⟨heap,globals,input,output,calls⟩ := w
  simp only [step,action]
  cases hop : (m.instr i).op
  case ret => rfl
  case br =>
    rcases (m.instr i).operands with _ | ⟨v,_ | ⟨yes,_ | ⟨no,_ | _⟩⟩⟩
    · rfl
    · cases v <;> rfl
    · cases v <;> rfl
    · by_cases hc : isOdd (a.eval m globals v).int
      · simp only [branchTarget,hc]
        cases yes <;> rfl
      · simp only [branchTarget,hc]
        cases no <;> rfl
    · cases v <;> rfl
  case call =>
    simp only
    cases m.callee? i with
    | none => rfl
    | some f =>
      simp only
      split
      · rcases builtin (m.func f).name _ _ with ⟨w,v | e⟩ <;> rfl
      · rfl
  all_goals
    simp only
    rcases Operation.execute (m.instr i) _ heap with ⟨h,v | e⟩ <;> rfl

/-- How an activation ends: after how many instructions, those of callees included, in which world,
and with what. -/
inductive Ends (m : Module) : World → Activation → Nat → World → Except Fault Datum → Prop where
  | stuck {w a} : a.rest = [] →
      Ends m w a 0 w (.error (.noTerminator (m.func a.func).name (m.block a.block).name))
  | done {w a i r v} : a.rest = i :: r → action m w a i = .done v → Ends m w a 1 w (.ok v)
  | fault {w a i r w' e} : a.rest = i :: r → action m w a i = .fault w' e →
      Ends m w a 1 w' (.error e)
  | go {w a i r w₁ a₁ k w' x} : a.rest = i :: r → action m w a i = .go w₁ a₁ →
      Ends m w₁ a₁ k w' x → Ends m w a (k + 1) w' x
  | call {w a i r w₁ c k w₂ v l w' x} : a.rest = i :: r → action m w a i = .call w₁ c →
      Ends m w₁ c k w₂ (.ok v) → Ends m w₂ (a.advance m v) l w' x → Ends m w a (k + l + 1) w' x
  | callFault {w a i r w₁ c k w' e} : a.rest = i :: r → action m w a i = .call w₁ c →
      Ends m w₁ c k w' (.error e) → Ends m w a (k + 1) w' (.error e)

section
variable {m : Module} {w w' : World} {a : Activation} {k n : Nat} {cs : List Activation}

theorem run_nil (h : a.rest = []) : run m n ⟨w,a,cs⟩ = (n,w,.error (.fault (callSites m cs)
    (.noTerminator (m.func a.func).name (m.block a.block).name))) := by
  rw [run.eq_def]
  simp only [h]

theorem run_zero (h : a.rest = i :: r) :
    run m 0 ⟨w,a,cs⟩ = (0,w,.error (.fault (callSites m cs) .stepLimit)) := by
  rw [run.eq_def]
  simp only [h]

theorem run_succ (h : a.rest = i :: r) :
    run m (n + 1) ⟨w,a,cs⟩ = match action m w a i with
      | .go w a => run m n ⟨w,a,cs⟩
      | .call w c => run m n ⟨w,c,a :: cs⟩
      | .done v =>
        match cs with
        | [] => (n,w,.ok v)
        | c::cs => run m n ⟨w,c.advance m v,cs⟩
      | .fault w e => (n,w,.error (.fault (callSites m (a :: cs)) e)) := by
  rw [run.eq_def]
  simp only [h,step_eq]
  cases action m w a i with
  | go w a => rfl
  | call w c => rfl
  | done v => cases cs <;> rfl
  | fault w e => rfl

/-- What becomes of a run when the active call ends with `x` and `n` instructions may still be
executed. -/
def Resumes (m : Module) (n : Nat) (w : World) (cs : List Activation)
    (r : Nat × World × Except RunError Datum) :
    Except Fault Datum → Prop
  | .ok v =>
    match cs with
    | [] => r = (n,w,.ok v)
    | c::cs => r = run m n ⟨w,c.advance m v,cs⟩
  | .error e => ∃ sites, r = (n,w,.error (.fault sites e))

/-- An activation that ends does so on every budget that is large enough, and its callers go on. -/
theorem Ends.resumes {x : Except Fault Datum} (h : Ends m w a k w' x) (n : Nat)
    (cs : List Activation) :
    Resumes m n w' cs (run m (n + k) ⟨w,a,cs⟩) x := by
  induction h generalizing n cs with
  | stuck h => exact ⟨_,run_nil h⟩
  | done h ha =>
    cases cs <;> simp only [Resumes,run_succ h,ha]
  | fault h ha => exact ⟨_,by rw [run_succ h,ha]⟩
  | @go w a i r w1 a1 k w' x h ha _ ih =>
    have hstep : ∀ cs, Run.run m (n + (k + 1)) ⟨w,a,cs⟩ = Run.run m (n + k) ⟨w1,a1,cs⟩ := by
      intro cs
      rw [← Nat.add_assoc,run_succ h,ha]
    rw [hstep]
    exact ih n cs
  | @call w a i r w1 c k w2 v l w' x h ha _ _ ih ih' =>
    have hstep : ∀ cs, Run.run m (n + (k + l + 1)) ⟨w,a,cs⟩ =
        Run.run m (n + l) ⟨w2,a.advance m v,cs⟩ := by
      intro cs
      rw [← Nat.add_assoc,run_succ h,ha]
      have hc : Run.run m (n + l + k) ⟨w1,c,a :: cs⟩ = Run.run m (n + l) ⟨w2,a.advance m v,cs⟩ :=
        ih (n + l) (a :: cs)
      rw [← hc,show n + l + k = n + (k + l) by omega]
    rw [hstep]
    exact ih' n cs
  | @callFault w a i r w1 c k w' e h ha _ ih =>
    obtain ⟨sites,hs⟩ := ih n (a :: cs)
    refine ⟨sites,?_⟩
    rw [← Nat.add_assoc,run_succ h,ha]
    exact hs

/-- An activation ends within a budget, or the machine spends the budget. -/
theorem ends_or_spent (m : Module) (n : Nat) (w : World) (a : Activation) :
    (∃ k w' x, k ≤ n ∧ Ends m w a k w' x) ∨
      ∀ cs, ∃ w' sites, run m n ⟨w,a,cs⟩ = (0,w',.error (.fault sites .stepLimit)) := by
  induction n using Nat.strongRecOn generalizing w a with
  | ind n ih =>
    cases hr : a.rest with
    | nil => exact .inl ⟨0,w,_,Nat.zero_le _,.stuck hr⟩
    | cons i r =>
      cases n with
      | zero => exact .inr fun cs => ⟨w,_,run_zero hr⟩
      | succ n =>
        have hs : ∀ cs, run m (n + 1) ⟨w,a,cs⟩ = _ := fun cs => run_succ hr
        cases ha : action m w a i with
        | done v => exact .inl ⟨1,w,_,by omega,.done hr ha⟩
        | fault w' e => exact .inl ⟨1,w',_,by omega,.fault hr ha⟩
        | go w1 a1 =>
          rcases ih n (by omega) w1 a1 with ⟨k,w',x,hk,h⟩ | h
          · exact .inl ⟨k+1,w',x,by omega,.go hr ha h⟩
          · exact .inr fun cs => by simpa only [hs,ha] using h cs
        | call w1 c =>
          rcases ih n (by omega) w1 c with ⟨k,w2,x,hk,h⟩ | h
          · cases x with
            | error e => exact .inl ⟨k+1,w2,_,by omega,.callFault hr ha h⟩
            | ok v =>
              rcases ih (n - k) (by omega) w2 (a.advance m v) with ⟨l,w',x,hl,h'⟩ | h'
              · exact .inl ⟨k+l+1,w',x,by omega,.call hr ha h h'⟩
              · refine .inr fun cs => ?_
                have hc : run m (n - k + k) ⟨w1,c,a :: cs⟩ = run m (n - k) ⟨w2,a.advance m v,cs⟩ :=
                  h.resumes (n - k) (a :: cs)
                rw [show n - k + k = n by omega] at hc
                simpa only [hs,ha,hc] using h' cs
          · exact .inr fun cs => by simpa only [hs,ha] using h (a :: cs)

end

/-! A budget is never the reason for a fault of an instruction. -/

theorem execute_ne_stepLimit (x : Instr) (ops : List Datum) (heap : Heap) :
    (Operation.execute x ops heap).2 ≠ .error .stepLimit := by
  unfold Operation.execute
  cases x.op
  case int o =>
    cases o
    case div =>
      simp only [Operation.arith]
      split <;> simp [Except.map]
    all_goals simp [Operation.arith,Except.map]
  case alloca => simp only; split <;> simp
  case load => simp only; split <;> simp
  case store => simp only; split <;> simp
  all_goals simp

/-- A world that an instruction can leave behind: no global has moved, and what was written stays.
-/
def Extends (w' w : World) : Prop := w'.globals = w.globals ∧ ∃ text, w'.output = w.output ++ text

theorem Extends.refl (w : World) : Extends w w := ⟨rfl,"",by simp⟩

theorem Extends.trans {w w1 w2 : World} (h : Extends w2 w1) (h' : Extends w1 w) : Extends w2 w := by
  obtain ⟨hg,t,ht⟩ := h
  obtain ⟨hg',t',ht'⟩ := h'
  exact ⟨hg.trans hg',t' ++ t,by rw [ht,ht',String.append_assoc]⟩

theorem builtin_extends (name : String) (args : List Datum) (w : World) :
    Extends (builtin name args w).1 w ∧ (builtin name args w).2 ≠ .error .stepLimit := by
  unfold builtin
  simp only
  split
  · rcases Input.readInteger w.input with ⟨n | e,rest⟩ <;> exact ⟨.refl w,by simp⟩
  · split
    · exact ⟨⟨rfl,_,String.append_assoc⟩,by simp⟩
    · split
      · exact ⟨⟨rfl,_,String.append_assoc⟩,by simp⟩
      · split <;> exact ⟨.refl w,by simp⟩

/-- The world after an action that was begun in `w`. -/
def Action.world (w : World) : Action → World
  | .go w _ | .call w _ | .fault w _ => w
  | .done _ => w

theorem action_extends (m : Module) (w : World) (a : Activation) (i : InstrId) :
    Extends ((action m w a i).world w) w ∧ ∀ w', action m w a i ≠ .fault w' .stepLimit := by
  by_cases hr : (m.instr i).op = .ret
  · rw [action_ret hr]
    exact ⟨.refl w,by simp⟩
  by_cases hb : (m.instr i).op = .br
  · rw [action_br hb]
    split <;> exact ⟨.refl w,by simp⟩
  by_cases hc : (m.instr i).op = .call
  · rw [action_call hc]
    split
    · exact ⟨.refl w,by simp⟩
    · rename_i f _
      have hg : Extends (builtin _ _ _).1 w ∧ _ :=
        builtin_extends (m.func f).name ((m.callArgs i).map (a.eval m w.globals))
        (countCall w (m.func f).name)
      split
      · split <;> simp_all [Action.world]
      · exact ⟨.refl w,by simp⟩
  · have hne := execute_ne_stepLimit (m.instr i)
      ((m.instr i).operands.map (a.eval m w.globals)) w.heap
    rw [action_execute hr hb hc]
    split
    · exact ⟨.refl w,by simp⟩
    · exact ⟨.refl w,by simp_all⟩

theorem Ends.ne_stepLimit {m : Module} {w w' : World} {a : Activation} {k : Nat}
    {x : Except Fault Datum} (h : Ends m w a k w' x) : x ≠ .error .stepLimit := by
  induction h with
  | stuck => simp
  | done => simp
  | fault _ ha =>
    rintro he
    cases he
    exact (action_extends ..).2 _ ha
  | go _ _ _ ih => exact ih
  | call _ _ _ _ _ ih => exact ih
  | callFault _ _ _ ih => exact ih

theorem run_extends (m : Module) (n : Nat) (s : Running) : Extends (run m n s).2.1 s.world := by
  obtain ⟨w,a,cs⟩ := s
  induction n generalizing w a cs with
  | zero =>
    cases hr : a.rest with
    | nil => exact run_nil hr ▸ .refl w
    | cons i r => exact run_zero hr ▸ .refl w
  | succ n ih =>
    cases hr : a.rest with
    | nil => exact run_nil hr ▸ .refl w
    | cons i r =>
      have hstep := (action_extends m w a i).1
      rw [run_succ hr]
      revert hstep
      cases action m w a i with
      | go w1 a1 => exact (ih _ _ _).trans
      | call w1 c => exact (ih _ _ _).trans
      | fault w1 e => exact id
      | done v =>
        cases cs with
        | nil => exact id
        | cons c cs => exact fun _ => ih _ _ _

theorem Ends.globals {m : Module} {w w' : World} {a : Activation} {k : Nat} {x : Except Fault Datum}
    (h : Ends m w a k w' x) : w'.globals = w.globals := by
  have hrun := run_extends m (0 + k) ⟨w,a,[]⟩
  have hres := h.resumes 0 []
  cases x with
  | ok v =>
    rw [Resumes] at hres
    exact (hres ▸ hrun).1
  | error e =>
    obtain ⟨sites,hres⟩ := hres
    exact (hres ▸ hrun).1

theorem Ends.unique {m : Module} {w w1 w2 : World} {a : Activation} {k1 k2 : Nat}
    {x1 x2 : Except Fault Datum} (h1 : Ends m w a k1 w1 x1) (h2 : Ends m w a k2 w2 x2) :
    k1 = k2 ∧ w1 = w2 ∧ x1 = x2 := by
  have r1 := h1.resumes k2 []
  have r2 := h2.resumes k1 []
  rw [Nat.add_comm] at r2
  cases x1 with
  | ok v1 =>
    cases x2 with
    | ok v2 => simp_all [Resumes]
    | error e => obtain ⟨s,r2⟩ := r2; simp_all [Resumes]
  | error e1 =>
    obtain ⟨s,r1⟩ := r1
    cases x2 with
    | ok v2 => simp_all [Resumes]
    | error e2 => obtain ⟨s',r2⟩ := r2; simp_all

end CMinusF.Run
