import CMinusF.Proofs.Graph.Verified
import CMinusF.Proofs.Machine.Calls
import CMinusF.Proofs.Machine.Registers

/-! An edge that leads through a new block: a run of the one module is a run of the other, but for
the branch at the end of the new block. -/
namespace CMinusF
open CMinusF.Module CMinusF.Run List
variable {m n : Module} {a : Activation} {i : InstrId} {r : List InstrId} {g : FuncId}
  {v : Operand} {vs : List Operand} {w w' : World} {k : Nat} {x : Except Fault Datum}
    {pre p : BlockId}

def Module.Laid (m : Module) (d : BlockId) : Prop := ∃ g ∈ m.funcs, d ∈ (m.func g).layout

/-- A module that has been checked, its functions with code all listed, and no branch leading out of
a function. -/
structure Sealed (m : Module) : Prop where
  mirror : m.Mirror
  verified : ∀ g ∈ m.funcs, m.verify g = .ok ()
  coded : ∀ g, (m.func g).layout ≠ [] → g ∈ m.funcs
  closed : ∀ g ∈ m.funcs, ∀ d ∈ (m.func g).layout, ∀ c ∈ m.succs d, c ∈ (m.func g).layout

/-- An activation in the middle of a block. -/
structure InLine (m : Module) (a : Activation) : Prop where
  laid : m.Laid a.block
  rest : ∃ done, m.body a.block = done ++ a.rest
  ne : a.rest ≠ []

/-- In `n` the branch at the end of `p` leads to `pre` wherever it led to `h` in `m`, and `pre`
leads to `h`. -/
structure Rerouted (m n : Module) (h pre p : BlockId) : Prop where
  name : ∀ g, (n.func g).name = (m.func g).name
  entry : ∀ g, (n.func g).entryBlock? = (m.func g).entryBlock?
  literal : ∀ c, (n.literal c).value = (m.literal c).value
  phis : ∀ d, m.Laid d → n.phis d = m.phis d
  body : ∀ d, m.Laid d → n.body d = m.body d
  view : ∀ d, m.Laid d → ∀ i ∈ m.body d, (n.instr i).op = (m.instr i).op ∧
    (n.instr i).type = (m.instr i).type ∧
    (n.instr i).object = (m.instr i).object
  kept : ∀ d, m.Laid d → ∀ i ∈ m.body d, (d = p → (m.instr i).op ≠ .br) →
    n.operands i = m.operands i
  moved : ∀ i ∈ m.body p, (m.instr i).op = .br →
    n.operands i = (m.operands i).map (Operand.replace (.block h) (.block pre))
  phi : ∀ d, m.Laid d → ∀ i ∈ m.phis d, ∀ q, m.Laid q → (d = h → q ≠ p) →
    n.incomingFor? i q = m.incomingFor? i q
  front : n.phis pre = [] ∧ ∃ t, n.body pre = [t] ∧ (n.instr t).op = .br ∧ n.operands t = [.block h]
  passes : ∀ i ∈ m.phis h, n.incomingFor? i pre = m.incomingFor? i p

namespace Sealed
variable {c d : BlockId}

/-- The instruction that a block ends with leads where the edges of the block lead. -/
theorem body_eq (hm : Sealed m) (hd : m.Laid d) : ∃ is t, m.body d = is ++ [t] ∧
    (m.instr t).op.isTerminator = true ∧
    (∀ i ∈ is, (m.instr i).op.isTerminator = false) ∧ ∀ c, c ∈ m.targets t → m.Laid c := by
  obtain ⟨g,hg,hd⟩ := hd
  obtain ⟨is,t,hb,ht,his,htargets⟩ := Tidy.terminated (hm.verified g hg) hd
  exact ⟨is,t,hb,ht,his,fun c hc => ⟨g,hg,hm.closed g hg d hd c ((htargets c).mp hc)⟩⟩

theorem body_ne_nil (hm : Sealed m) (hd : m.Laid d) : m.body d ≠ [] := by
  obtain ⟨is,t,hb,-⟩ := hm.body_eq hd
  simp [hb]

end Sealed

namespace InLine
variable {c : BlockId}

theorem mem_body (h : InLine m a) (hr : a.rest = i :: r) : i ∈ m.body a.block := by
  obtain ⟨done,hd⟩ := h.rest
  rw [hd,hr]
  simp

/-- What leaves a block comes last, and leads to a block of the function. -/
theorem targets_laid (h : InLine m a) (hm : Sealed m) (hr : a.rest = i :: r)
    (hc : c ∈ m.targets i) : m.Laid c := by
  obtain ⟨done,hd⟩ := h.rest
  obtain ⟨is,t,hb,ht,his,htargets⟩ := hm.body_eq h.laid
  have hi : i ∈ is ++ [t] := by
    rw [← hb,hd,hr]
    simp
  rcases mem_append.mp hi with hi | hi
  · have := his i hi
    rw [(mem_targets.mp hc).1] at this
    cases this
  · rw [mem_singleton.mp hi] at hc
    exact htargets c hc

theorem enter (hm : Sealed m) (hc : m.Laid c) (a : Activation) (globals : Table (Option Nat))
    (q : Option BlockId) :
    InLine m (a.enter m globals q c) := by
  refine ⟨?_,⟨[],?_⟩,?_⟩
  · rwa [Activation.block_enter]
  · rw [Activation.block_enter,Activation.rest_enter,nil_append]
  · rw [Activation.rest_enter]
    exact hm.body_ne_nil hc

theorem start (hm : Sealed m) (hg : (m.func g).isDeclaration = false) (globals : Table (Option Nat))
    (args : List Datum) :
    InLine m (activation m globals g args) := by
  refine enter hm ?_ _ globals none
  cases hl : (m.func g).layout with
  | nil =>
    rw [Func.isDeclaration,hl] at hg
    cases hg
  | cons e l =>
    rw [Func.entryBlock?,hl]
    exact ⟨g,hm.coded g (by simp [hl]),by simp [hl]⟩

theorem next (h : InLine m a) (hm : Sealed m) (hr : a.rest = i :: r)
    (ht : (m.instr i).op.isTerminator = false) (v : Datum) :
    InLine m (a.advance m v) := by
  obtain ⟨done,hd⟩ := h.rest
  have hrest := Activation.rest_advance (m := m) hr v
  rw [hr] at hd
  refine ⟨by rw [Activation.block_advance]; exact h.laid,⟨done ++ [i],?_⟩,?_⟩
  · rw [Activation.block_advance,hrest,hd]
    simp
  · rw [hrest]
    rintro rfl
    obtain ⟨is,t,hb,hterm,-⟩ := hm.body_eq h.laid
    have hit : i = t := by
      have := congrArg List.getLast? (hd.symm.trans hb)
      simpa using this
    rw [hit,hterm] at ht
    cases ht

end InLine

theorem Run.branchTarget_mem {eval : Operand → Datum} (h : branchTarget eval vs ≠ .hole) :
    branchTarget eval vs ∈ vs := by
  unfold branchTarget at h ⊢
  grind

theorem Run.branchTarget_replace {eval : Operand → Datum} {old new : BlockId}
    (h : ∀ v ∈ vs, eval (Operand.replace (.block old) (.block new) v) = eval v) :
    branchTarget eval (vs.map (Operand.replace (.block old) (.block new))) =
      Operand.replace (.block old) (.block new) (branchTarget eval vs) := by
  match vs, h with
  | [], _ | [_], _ | [_,_], _ | _::_::_::_::_, _ => rfl
  | [c,_,_], h =>
    simp only [map_cons,map_nil,branchTarget]
    rw [h c mem_cons_self]
    split <;> rfl

theorem execute_same {x x' : Instr} (hop : x'.op = x.op) (hobj : x'.object = x.object)
    (ops : List Datum) (heap : Heap) :
    Operation.execute x' ops heap = Operation.execute x ops heap := by
  unfold Operation.execute
  rw [hop,hobj]

namespace Run.Ends
variable {w₁ : World} {a₁ c : Activation}

theorem of_go (h : Ends m w a k w' x) (hr : a.rest = i :: r) (hact : action m w a i = .go w₁ a₁) :
    ∃ l, k = l + 1 ∧ Ends m w₁ a₁ l w' x := by
  cases h with
  | go hr' hact' hend => grind
  | _ => grind

theorem of_call (h : Ends m w a k w' x) (hr : a.rest = i :: r)
    (hact : action m w a i = .call w₁ c) :
    (∃ k1 w2 v l, k = k1 + l + 1 ∧ Ends m w₁ c k1 w2 (.ok v) ∧ Ends m w2 (a.advance m v) l w' x) ∨
      ∃ k1 e, k = k1 + 1 ∧ x = .error e ∧ Ends m w₁ c k1 w' (.error e) := by
  cases h with
  | call hr' hact' h1 h2 => grind
  | callFault hr' hact' h1 => grind
  | _ => grind

end Run.Ends

/-- The second activation is the first one, or about to become it after a branch. -/
def Arrives (n : Module) (w : World) (a a' : Activation) : Prop :=
  a' = a ∨ ∃ t r, a'.rest = t :: r ∧ action n w a' t = .go w a

/-- What an activation does in the two modules. -/
inductive Answers (m n : Module) (a : Activation) : Action → Action → Prop where
  | done (v : Datum) : Answers m n a (.done v) (.done v)
  | fault (w : World) (x : Fault) : Answers m n a (.fault w x) (.fault w x)
  | go {w : World} {a₁ a₁' : Activation} : InLine m a₁ → Arrives n w a₁ a₁' →
      Answers m n a (.go w a₁) (.go w a₁')
  | call {w : World} {c : Activation} : InLine m c → (∀ v, InLine m (a.advance m v)) →
      Answers m n a (.call w c) (.call w c)

namespace Answers
variable {a₁ c : Activation} {y : Action}

theorem eq_done {v : Datum} (h : Answers m n a (.done v) y) : y = .done v := by
  cases h
  rfl

theorem eq_fault {x : Fault} (h : Answers m n a (.fault w x) y) : y = .fault w x := by
  cases h
  rfl

theorem exists_go (h : Answers m n a (.go w a₁) y) :
    ∃ a₁', y = .go w a₁' ∧ InLine m a₁ ∧ Arrives n w a₁ a₁' := by
  cases h with
  | go ha harr => exact ⟨_,rfl,ha,harr⟩

theorem eq_call (h : Answers m n a (.call w c) y) :
    y = .call w c ∧ InLine m c ∧ ∀ v, InLine m (a.advance m v) := by
  cases h with
  | call hc hnext => exact ⟨rfl,hc,hnext⟩

end Answers

namespace Rerouted
variable {h d : BlockId} {globals : Table (Option Nat)}

variable (R : Rerouted m n h pre p)
include R

theorem declaration (g : FuncId) : (n.func g).isDeclaration = (m.func g).isDeclaration := by
  have h := R.entry g
  rw [Func.entryBlock?,Func.entryBlock?] at h
  rw [Func.isDeclaration,Func.isDeclaration,Bool.eq_iff_iff,List.isEmpty_iff,List.isEmpty_iff,
    ← head?_eq_none_iff,← head?_eq_none_iff,h]

theorem eval_eq (a : Activation) (globals : Table (Option Nat)) :
    a.eval n globals = a.eval m globals := by
  funext v
  cases v with
  | literal c => simp only [Activation.eval,R.literal]
  | _ => rfl

theorem enter_eq (hd : m.Laid d) {q q' : Option BlockId}
    (hq : ∀ i ∈ m.phis d, q'.bind (n.incomingFor? i) = q.bind (m.incomingFor? i)) :
    a.enter n globals q' d = a.enter m globals q d := by
  have hbody := R.body d hd
  rw [Module.body,Module.body,R.phis d hd] at hbody
  have hvalues :
    (m.phis d).map (fun i => ((q'.bind (n.incomingFor? i)).map (a.eval n globals)).getD .zero) =
      (m.phis d).map fun i => ((q.bind (m.incomingFor? i)).map (a.eval m globals)).getD .zero :=
    map_congr_left fun i hi => by rw [hq i hi,R.eval_eq]
  simp only [Activation.enter,R.phis d hd,hvalues,hbody]

theorem arrives_front (hh : m.Laid h) (w : World) :
    Arrives n w (a.enter m w.globals (some p) h) (a.enter n w.globals (some p) pre) := by
  obtain ⟨hphis,t,hbody,hop,hops⟩ := R.front
  have hpre : a.enter n w.globals (some p) pre =
      { a with block := pre, rest := (n.block pre).instrs } := by
    simp only [Activation.enter,hphis]
    rfl
  have ht : branchTarget ((a.enter n w.globals (some p) pre).eval n w.globals)
      (n.instr t).operands = .block h := by
    rw [show (n.instr t).operands = [.block h] from hops]
    rfl
  refine .inr ⟨t,[],by rw [Activation.rest_enter,hbody],?_⟩
  rw [action_br_to hop ht,Activation.block_enter,hpre]
  exact congrArg _ (R.enter_eq (a := a) hh R.passes)

theorem advance_eq (ha : InLine m a) (hr : a.rest = i :: r) (v : Datum) :
    a.advance n v = a.advance m v := by
  simp only [Activation.advance,hr,(R.view _ ha.laid i (ha.mem_body hr)).2.1]

theorem start (hm : Sealed m) (hg : (m.func g).isDeclaration = false) (globals : Table (Option Nat))
    (args : List Datum) :
    activation n globals g args = activation m globals g args := by
  have hlaid := (InLine.start hm hg globals args).laid
  unfold activation at hlaid ⊢
  rw [R.entry]
  exact R.enter_eq hlaid fun i _ => rfl

theorem answers_br (hm : Sealed m) (ha : InLine m a) (hr : a.rest = i :: r)
    (hop : (m.instr i).op = .br) (w : World) :
    Answers m n a (action m w a i) (action n w a i) := by
  have hi := ha.mem_body hr
  have htarget : branchTarget (a.eval m w.globals) (n.operands i) =
      if a.block = p then Operand.replace (.block h) (.block pre)
        (branchTarget (a.eval m w.globals) (m.operands i))
      else branchTarget (a.eval m w.globals) (m.operands i) := by
    split
    · rename_i hb
      rw [R.moved i (hb ▸ hi) hop]
      refine branchTarget_replace fun v _ => ?_
      unfold Operand.replace
      split
      · rename_i hvh
        rw [hvh]
        rfl
      · rfl
    · rename_i hb
      rw [R.kept _ ha.laid i hi fun hb' => absurd hb' hb]
  have hlaid : ∀ {c}, branchTarget (a.eval m w.globals) (m.operands i) = .block c → m.Laid c :=
    fun {c} hc =>
    ha.targets_laid hm hr (mem_targets.mpr ⟨hop,hc ▸ branchTarget_mem (by rw [hc]; nofun)⟩)
  have hop' := (R.view _ ha.laid i hi).1.trans hop
  rw [action_br hop,action_br hop',R.eval_eq]
  rw [← Module.operands,← Module.operands,htarget]
  generalize branchTarget (a.eval m w.globals) (m.operands i) = v at hlaid
  by_cases hv : a.block = p ∧ v = .block h
  · obtain ⟨hb,rfl⟩ := hv
    rw [if_pos hb,Operand.replace,if_pos rfl,hb]
    exact .go (.enter hm (hlaid rfl) _ _ _) (R.arrives_front (hlaid rfl) w)
  · have hsame : (if a.block = p then Operand.replace (.block h) (.block pre) v else v) = v := by
      split
      · rename_i hb
        exact Operand.replace_of_ne fun heq => hv ⟨hb,heq⟩
      · rfl
    rw [hsame]
    cases v with
    | block c =>
      refine .go (.enter hm (hlaid rfl) _ _ _) (.inl (R.enter_eq (hlaid rfl) fun j hj => ?_))
      exact R.phi c (hlaid rfl) j hj _ ha.laid fun hc hb => hv ⟨hb,by rw [hc]⟩
    | _ => exact .fault _ _

theorem answers (hm : Sealed m) (ha : InLine m a) (hr : a.rest = i :: r) (w : World) :
    Answers m n a (action m w a i) (action n w a i) := by
  have hi := ha.mem_body hr
  by_cases hbr : (m.instr i).op = .br
  · exact R.answers_br hm ha hr hbr w
  obtain ⟨hop,-,hobj⟩ := R.view _ ha.laid i hi
  have hops : (n.instr i).operands = (m.instr i).operands := R.kept _ ha.laid i hi fun _ => hbr
  by_cases hret : (m.instr i).op = .ret
  · rw [action_ret hret,action_ret (hop.trans hret),hops,R.eval_eq]
    exact .done _
  have hgo : (m.instr i).op.isTerminator = false →
    ∀ w v, Answers m n a (.go w (a.advance m v)) (.go w (a.advance n v)) := fun ht w v =>
    .go (ha.next hm hr ht v) (.inl (R.advance_eq ha hr v))
  by_cases hcall : (m.instr i).op = .call
  · have hterm : (m.instr i).op.isTerminator = false := by rw [hcall]; rfl
    have hcallee : n.callee? i = m.callee? i := by rw [callee?,callee?,hop,operands,hops]; rfl
    have hargs : n.callArgs i = m.callArgs i := by rw [callArgs,callArgs,hop,operands,hops]; rfl
    rw [action_call hcall,action_call (hop.trans hcall),hcallee,hargs,R.eval_eq]
    cases m.callee? i with
    | none => exact .fault _ _
    | some g =>
      dsimp only
      rw [R.name,R.declaration]
      generalize (m.callArgs i).map (a.eval m w.globals) = args
      split
      · rcases builtin (m.func g).name args (countCall w (m.func g).name) with ⟨w₁,x | v⟩
        · exact .fault _ _
        · exact hgo hterm _ v
      · rename_i hd
        have hd := eq_false_of_ne_true hd
        rw [R.start hm hd]
        exact .call (.start hm hd _ _) (ha.next hm hr hterm)
  · have hterm : (m.instr i).op.isTerminator = false := by
      cases hop : (m.instr i).op <;> first | rfl | contradiction
    rw [action_execute hret hbr hcall,action_execute (hop ▸ hret) (hop ▸ hbr) (hop ▸ hcall),hops,
      R.eval_eq,execute_same hop hobj]
    rcases Operation.execute (m.instr i) _ w.heap with ⟨heap,x | v⟩
    · exact .fault _ _
    · exact hgo hterm _ v

/-- A run of the one module that ends is one of the other, which may take longer. -/
theorem ends_after (hm : Sealed m) (he : Ends m w a k w' x) :
    InLine m a → ∀ a', Arrives n w a a' → ∃ d, Ends n w a' (k + d) w' x := by
  -- through the new block the way is one step longer
  have through : ∀ {w w' : World} {a a' : Activation} {k : Nat} {x : Except Fault Datum},
    Arrives n w a a' →
      (∃ d, Ends n w a (k + d) w' x) → ∃ d, Ends n w a' (k + d) w' x := by
    rintro w w' a a' k x (rfl | ⟨t,r,hr,ht⟩) ⟨d,hd⟩
    · exact ⟨d,hd⟩
    · exact ⟨d + 1,.go hr ht hd⟩
  induction he with
  | stuck hr => exact fun ha => absurd hr ha.ne
  | done hr hact =>
    exact fun ha a' harr => through harr ⟨0,.done hr (hact ▸ R.answers hm ha hr _).eq_done⟩
  | fault hr hact =>
    exact fun ha a' harr => through harr ⟨0,.fault hr (hact ▸ R.answers hm ha hr _).eq_fault⟩
  | go hr hact _ ih =>
    refine fun ha a' harr => through harr ?_
    obtain ⟨a₁',hact',ha1,harr1⟩ := (hact ▸ R.answers hm ha hr _).exists_go
    obtain ⟨d,hd⟩ := ih ha1 a₁' harr1
    exact ⟨d,Nat.add_right_comm _ 1 d ▸ .go hr hact' hd⟩
  | @call w a i r w₁ c k w2 v l w' x hr hact _ _ ih1 ih2 =>
    refine fun ha a' harr => through harr ?_
    obtain ⟨hact',hc,hnext⟩ := (hact ▸ R.answers hm ha hr _).eq_call
    obtain ⟨d1,hd1⟩ := ih1 hc c (.inl rfl)
    obtain ⟨d2,hd2⟩ := ih2 (hnext v) _ (.inl (R.advance_eq ha hr v))
    refine ⟨d1 + d2,?_⟩
    have hcount : k + l + 1 + (d1 + d2) = k + d1 + (l + d2) + 1 := by omega
    exact hcount ▸ .call hr hact' hd1 hd2
  | callFault hr hact _ ih =>
    refine fun ha a' harr => through harr ?_
    obtain ⟨hact',hc,-⟩ := (hact ▸ R.answers hm ha hr _).eq_call
    obtain ⟨d,hd⟩ := ih hc _ (.inl rfl)
    exact ⟨d,Nat.add_right_comm _ 1 d ▸ .callFault hr hact' hd⟩

/-- A run through new blocks that ends is one without them, which takes no longer. -/
theorem ends_before (hm : Sealed m) : ∀ {w w' : World} {a a' : Activation} {x : Except Fault Datum},
    Ends n w a' k w' x → InLine m a → Arrives n w a a' → ∃ l ≤ k, Ends m w a l w' x := by
  induction k using Nat.strongRecOn with
  | _ k ih =>
    intro w w' a a' x he ha harr
    rcases harr with rfl | ⟨t,r,hr,ht⟩
    · cases hr : a'.rest with
      | nil => exact absurd hr ha.ne
      | cons i r =>
        have hans := R.answers hm ha hr w
        cases hact : action m w a' i with
        | done v =>
          obtain ⟨rfl,rfl,rfl⟩ := he.unique (.done hr (hact ▸ hans).eq_done)
          exact ⟨1,Nat.le_refl _,.done hr hact⟩
        | fault w₁ e =>
          obtain ⟨rfl,rfl,rfl⟩ := he.unique (.fault hr (hact ▸ hans).eq_fault)
          exact ⟨1,Nat.le_refl _,.fault hr hact⟩
        | go w₁ a₁ =>
          obtain ⟨a₁',hact',ha1,harr1⟩ := (hact ▸ hans).exists_go
          obtain ⟨l,rfl,hl⟩ := he.of_go hr hact'
          obtain ⟨j,hj,hend⟩ := ih l (Nat.lt_succ_self l) hl ha1 harr1
          exact ⟨j + 1,Nat.succ_le_succ hj,.go hr hact hend⟩
        | call w₁ c =>
          obtain ⟨hact',hc,hnext⟩ := (hact ▸ hans).eq_call
          rcases he.of_call hr hact' with ⟨k1,w2,v,l,rfl,h1,h2⟩ | ⟨k1,e,rfl,rfl,h1⟩
          · obtain ⟨j1,hj1,he1⟩ := ih k1 (by omega) h1 hc (.inl rfl)
            obtain ⟨j2,hj2,he2⟩ := ih l (by omega) h2 (hnext v) (.inl (R.advance_eq ha hr v))
            exact ⟨j1 + j2 + 1,by omega,.call hr hact he1 he2⟩
          · obtain ⟨j1,hj1,he1⟩ := ih k1 (by omega) h1 hc (.inl rfl)
            exact ⟨j1 + 1,by omega,.callFault hr hact he1⟩
    · obtain ⟨l,rfl,hl⟩ := he.of_go hr ht
      obtain ⟨j,hj,hend⟩ := ih l (Nat.lt_succ_self l) hl ha (.inl rfl)
      exact ⟨j,by omega,hend⟩

end Rerouted

/-- In `n` a call goes as in `m`, but it may take longer. -/
structure Slowed (m n : Module) : Prop where
  after : ∀ {w w₁ : World} {f : FuncId} {args : List Datum} {k : Nat} {x : Except Fault Datum},
    CallEnds m w f args k w₁ x → ∃ d, CallEnds n w f args (k + d) w₁ x
  before : ∀ {w w₁ : World} {f : FuncId} {args : List Datum} {k : Nat} {x : Except Fault Datum},
    CallEnds n w f args k w₁ x → ∃ l ≤ k, CallEnds m w f args l w₁ x

theorem Rerouted.slowed {h : BlockId} (R : Rerouted m n h pre p) (hm : Sealed m) : Slowed m n where
  after {w w₁ f args k x} he := by
    cases he with
    | builtin hd =>
      refine ⟨0,?_⟩
      rw [← R.name]
      exact .builtin ((R.declaration f).trans hd)
    | code hd he =>
      obtain ⟨d,hd'⟩ := R.ends_after hm he (.start hm hd _ _) _
        (.inl (R.start hm hd w.globals args))
      rw [← R.name] at hd'
      exact ⟨d,.code ((R.declaration f).trans hd) hd'⟩
  before {w w₁ f args k x} he := by
    cases he with
    | builtin hd =>
      refine ⟨0,Nat.le_refl _,?_⟩
      rw [R.name]
      exact .builtin ((R.declaration f).symm.trans hd)
    | code hd he =>
      have hd := (R.declaration f).symm.trans hd
      rw [R.name] at he
      obtain ⟨l,hl,hend⟩ :=
        R.ends_before hm he (.start hm hd _ _) (.inl (R.start hm hd w.globals args))
      exact ⟨l,hl,.code hd hend⟩

namespace Slowed
variable {k : Module}

theorem refl (m : Module) : Slowed m m := ⟨fun h => ⟨0,h⟩,fun h => ⟨_,Nat.le_refl _,h⟩⟩

theorem trans (h : Slowed m n) (h' : Slowed n k) : Slowed m k where
  after he := by
    obtain ⟨d,hd⟩ := h.after he
    obtain ⟨d',hd'⟩ := h'.after hd
    exact ⟨d + d',Nat.add_assoc _ d d' ▸ hd'⟩
  before he := by
    obtain ⟨l,hl,hend⟩ := h'.before he
    obtain ⟨l',hl',hend'⟩ := h.before hend
    exact ⟨l',hl'.trans hl,hend'⟩

end Slowed
end CMinusF
