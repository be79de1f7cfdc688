import CMinusF.Machine.Run
import CMinusF.Proofs.Graph.Formed

/-! What entering a block and finishing an instruction do to an activation. -/
namespace CMinusF.Activation

theorem get_foldl_set {g : InstrId → Datum} (l : List InstrId) (r : Table Datum) (j : InstrId) :
    ((l.zip (l.map g)).foldl (fun r (x : InstrId × Datum) => r.set x.1 x.2) r).get j =
      if j ∈ l then g j else r.get j := by
  induction l generalizing r with
  | nil => simp
  | cons i l ih =>
    rw [List.map_cons,List.zip_cons_cons,List.foldl_cons,ih,Table.get_set]
    grind

section
variable (m : Module) (globals : Table (Option Nat)) (a : Activation) (pred : Option BlockId)
  (b : BlockId)

def phiValue (i : InstrId) : Datum :=
  ((pred.bind (m.incomingFor? i)).map (a.eval m globals)).getD .zero

theorem get_enter (j : InstrId) : (a.enter m globals pred b).registers.get j =
    if j ∈ m.phis b then a.phiValue m globals pred j else a.registers.get j :=
  get_foldl_set (m.phis b) a.registers j

@[simp] theorem func_enter : (a.enter m globals pred b).func = a.func := rfl
@[simp] theorem args_enter : (a.enter m globals pred b).args = a.args := rfl
@[simp] theorem block_enter : (a.enter m globals pred b).block = b := rfl
@[simp] theorem rest_enter : (a.enter m globals pred b).rest = m.body b := rfl

end

section
variable {m : Module} {a : Activation} {i : InstrId} {rest : List InstrId}

theorem func_advance (m : Module) (a : Activation) (v : Datum) : (a.advance m v).func = a.func := by
  unfold advance
  split
  · rfl
  · split <;> rfl

theorem args_advance (m : Module) (a : Activation) (v : Datum) : (a.advance m v).args = a.args := by
  unfold advance
  split
  · rfl
  · split <;> rfl

theorem block_advance (m : Module) (a : Activation) (v : Datum) :
    (a.advance m v).block = a.block := by
  unfold advance
  split
  · rfl
  · split <;> rfl

theorem rest_advance (h : a.rest = i :: rest) (v : Datum) : (a.advance m v).rest = rest := by
  unfold advance
  rw [h]
  dsimp only
  split <;> rfl

theorem get_advance (h : a.rest = i :: rest) (v : Datum) (j : InstrId) :
    (a.advance m v).registers.get j =
    if (m.instr i).type.isVoid = false ∧ i = j then v else a.registers.get j := by
  unfold advance
  rw [h]
  dsimp only
  split
  · rename_i hv
    simp [hv]
  · rename_i hv
    simp [hv,Table.get_set]

theorem getD_map_eval (m : Module) (globals : Table (Option Nat)) (a : Activation)
    (i : InstrId) (n : Nat) :
    ((m.instr i).operands.map (a.eval m globals)).getD n .zero =
      a.eval m globals (m.operand i n) := by
  rw [List.getD_eq_getElem?_getD,List.getElem?_map,Module.operand,List.getD_eq_getElem?_getD,
    Module.operands]
  cases (m.instr i).operands[n]? <;> rfl

theorem eval_congr {m : Module} {globals : Table (Option Nat)} {a b : Activation}
    (hf : b.func = a.func) (ha : b.args = a.args) {v : Operand}
    (hr : ∀ j, v = .instr j → b.registers.get j = a.registers.get j) :
    b.eval m globals v = a.eval m globals v := by
  cases v with
  | instr j => exact hr j rfl
  | arg f n => simp [eval,hf,ha]
  | _ => rfl

end
end CMinusF.Activation
