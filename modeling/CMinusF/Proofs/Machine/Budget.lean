import CMinusF.Proofs.Machine.Calls

/-! A larger budget changes no result that a smaller one was enough for, and takes back nothing that
was written. -/
namespace CMinusF
open Run

namespace Run

/-- A run that ends within its budget ends in the same way on any larger one, with more left; and no
run gets less far on a larger one. -/
theorem run_add (m : Module) (n k : Nat) (s : Running) :
    (¬Spent (run m n s).2.2 → run m (n + k) s = ((run m n s).1 + k,(run m n s).2)) ∧
      Extends (run m (n + k) s).2.1 (run m n s).2.1 := by
  obtain ⟨w,a,cs⟩ := s
  induction n generalizing w a cs with
  | zero =>
    have h := run_extends m (0 + k) ⟨w,a,cs⟩
    cases hr : a.rest with
    | nil =>
      rw [run_nil hr,run_nil hr]
      exact ⟨fun _ => rfl,.refl w⟩
    | cons i r =>
      rw [run_zero hr]
      exact ⟨absurd ⟨_,rfl⟩,h⟩
  | succ n ih =>
    cases hr : a.rest with
    | nil =>
      rw [run_nil hr,run_nil hr]
      exact ⟨fun _ => rfl,.refl w⟩
    | cons i r =>
      rw [Nat.add_right_comm,run_succ hr,run_succ hr]
      cases action m w a i with
      | go w1 a1 => exact ih _ _ _
      | call w1 c => exact ih _ _ _
      | fault w1 e => exact ⟨fun _ => rfl,.refl w1⟩
      | done v =>
        cases cs with
        | nil => exact ⟨fun _ => rfl,.refl w⟩
        | cons c cs => exact ih _ _ _

end Run

/-- A call on a new machine: a result that the budget was enough for is the same on every larger
budget, with the world it leaves behind, which is the output, the counts of calls, the place in the
input and the memory; and what is written on a budget is the start of what is written on a larger
one. Whether there is a machine for the module does not depend on the budget. -/
theorem call_of_le_budget (m : Module) (heap : Heap) (input name : String) (args : List Datum)
    {n n' : Nat} (hn : n ≤ n') :
    (Machine.new m heap input n).isSome = (Machine.new m heap input n').isSome ∧
    ∀ mc ∈ Machine.new m heap input n, ∀ mc' ∈ Machine.new m heap input n',
      let small := mc.call m name args
      let large := mc'.call m name args
      (¬Spent small.2 → large = (⟨small.1.budget + (n' - n),small.1.world⟩,small.2)) ∧
        ∃ text, large.1.world.output = small.1.world.output ++ text := by
  obtain ⟨k,rfl⟩ := Nat.exists_eq_add_of_le hn
  refine ⟨by simp only [Machine.new,Option.isSome_map],fun mc hmc mc' hmc' => ?_⟩
  -- the two machines differ in their budgets only
  obtain ⟨w,hw,rfl⟩ := Option.map_eq_some_iff.mp hmc
  obtain ⟨w',hw',rfl⟩ := Option.map_eq_some_iff.mp hmc'
  obtain rfl := Option.some.inj (hw.symm.trans hw')
  have hsame : ∀ w : World, ∃ text, w.output = w.output ++ text := fun w => (Extends.refl w).2
  simp only [Machine.call,Nat.add_sub_cancel_left]
  cases hf : m.func? name with
  | none => exact ⟨fun _ => rfl,hsame _⟩
  | some f =>
    simp only
    split
    · exact ⟨fun _ => rfl,hsame _⟩
    · simp only [Machine.callFunc]
      split
      · rcases Run.builtin _ _ _ with ⟨w,e | v⟩ <;> exact ⟨fun _ => rfl,hsame w⟩
      · obtain ⟨hsame,-,hout⟩ := run_add m n k _
        exact ⟨fun h => by rw [hsame h],hout⟩

/-- A function that writes a number for ever, and one that writes it once. -/
def telling : Module :=
  let b (f : FuncId) : BlockId := ⟨f,0⟩
  { name := "telling", globals := [], funcs := [0,1,2], globalTable := .empty
    funcTable := ⟨#[⟨"output",.void,[.i32],[],.empty,0,.empty,[0,2]⟩,
      ⟨"always",.void,[],[b 1],⟨#[⟨"entry",[0,1],[b 1],[b 1],[1]⟩]⟩,0,.empty,[]⟩,
      ⟨"once",.i32,[],[b 2],⟨#[⟨"entry",[2,3],[],[],[]⟩]⟩,0,.empty,[]⟩]⟩
    instrTable := ⟨#[
      ⟨.call,.void,none,none,[.func 0,.literal 0],some (b 1),[]⟩,
      ⟨.br,.void,none,none,[.block (b 1)],some (b 1),[]⟩,
      ⟨.call,.void,none,none,[.func 0,.literal 0],some (b 2),[]⟩,
      ⟨.ret,.void,none,none,[.literal 0],some (b 2),[]⟩]⟩
    literalTable := ⟨#[⟨.int 7,[0,2,3]⟩]⟩ }

theorem call_of_le_budget_telling :
    let w : World := ⟨.empty,.empty,[],"",∅⟩
    let once n := (⟨n,w⟩ : Machine).call telling "once" []
    let always n := (⟨n,w⟩ : Machine).call telling "always" []
    (∀ n, Machine.new telling .empty "" n = some ⟨n,w⟩) ∧ (once 2).2 = .ok (.ofInt 7) ∧
      (once 9).2 = .ok (.ofInt 7) ∧ (once 9).1.world.output = "7\n" ∧
      Spent (always 3).2 ∧ ∃ text, (always 9).1.world.output = "7\n7\n" ++ text := by
  intro w once always
  have hnew : ∀ n, Machine.new telling .empty "" n = some ⟨n,w⟩ := fun _ => rfl
  have h : (once 2).2 = .ok (.ofInt 7) := by decide +kernel
  have hout : (once 2).1.world.output = "7\n" := by decide +kernel
  have hout' : (always 3).1.world.output = "7\n7\n" := by decide +kernel
  have hle : once 9 = (⟨(once 2).1.budget + (9 - 2),(once 2).1.world⟩,(once 2).2) :=
    ((call_of_le_budget telling .empty "" "once" [] (by decide)).2 _ (hnew 2) _ (hnew 9)).1
      (by rw [h]; rintro ⟨_,h⟩; cases h)
  have hlonger := (call_of_le_budget telling .empty "" "always" [] (by decide)).2
    _ (hnew 3) _ (hnew 9)
  exact ⟨hnew,h,by rw [hle,h],by rw [hle,hout],⟨[],by decide +kernel⟩,hout' ▸ hlonger.2⟩

end CMinusF
