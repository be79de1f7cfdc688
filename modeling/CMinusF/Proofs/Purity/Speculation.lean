import CMinusF.Proofs.Purity.CallGraph
import CMinusF.Proofs.Purity.Runs

/-! Instructions that can run anywhere. Of those that leave memory alone only a division can fault.
Whether it can is asked of the divisor as it is written, but it divides by the low 32 bits. -/
namespace CMinusF
open Numeric
variable {m : Module} {i : InstrId}

theorem wrap32_eq_zero_iff (k : Int) : wrap32 k = 0 ↔ (4294967296 : Int) ∣ k := by
  rw [wrap32_eq_bmod]
  simp only [Int.bmod]
  omega

theorem eval_blank (m : Module) (f : FuncId) (v : Operand)
    (h : ((⟨f,[],.empty,default,[]⟩ : Activation).eval m .empty v).int ≠ 0) :
    ∃ c k, v = .literal c ∧ (m.literal c).value = .int k := by
  cases v with
  | literal c =>
    cases hk : (m.literal c).value with
    | int k => exact ⟨c,k,rfl,hk⟩
    | float x => simp [Activation.eval,hk,Datum.ofFloat,Datum.zero] at h
    | undef t => simp [Activation.eval,hk,Datum.zero] at h
  | arg g n => simp [Activation.eval,Datum.zero] at h
  | instr j => exact absurd rfl h
  | _ => exact absurd rfl h

/-- An instruction that leaves memory and control alone never faults, in whatever frame, exactly if
it may be speculated and is no division by a multiple of 2^32 and no allocation that is too long. -/
theorem executes_anywhere_iff {m : Module} {i : InstrId}
    (hop : (m.instr i).op ∉ [.ret,.br,.load,.store,.call,.phi])
    (hknown : ∀ k, (m.instr i).op ≠ .unknown k) :
    (∀ (w : World) (a : Activation), ∃ heap v,
      Operation.execute (m.instr i) ((m.instr i).operands.map (a.eval m w.globals)) w.heap =
        (heap,.ok v)) ↔
    m.speculatable i = true ∧
      (∀ c k, (m.instr i).op = .int .div → m.operand i 1 = .literal c →
        (m.literal c).value = .int k → ¬(4294967296 : Int) ∣ k) ∧
      ((m.instr i).op = .alloca → ((m.instr i).object.getD .void).length ≤ Object.limit) := by
  simp only [List.mem_cons,not_or] at hop
  obtain ⟨hret,hbr,hload,hstore,hcall,hphi,-⟩ := hop
  have eval : ∀ g (a : Activation), ((m.instr i).operands.map (a.eval m g)).getD 1 .zero =
    a.eval m g (m.operand i 1) :=
    fun g a => a.getD_map_eval m g i 1
  constructor
  · intro h
    -- a frame in which only literals are worth anything
    obtain ⟨heap,v,hx⟩ := h ⟨.empty,.empty,[],"",∅⟩ ⟨0,[],.empty,default,[]⟩
    have hdiv : (m.instr i).op = .int .div →
        wrap32 ((⟨0,[],.empty,default,[]⟩ : Activation).eval m .empty (m.operand i 1)).int ≠ 0 := by
      intro ho hzero
      rw [Operation.execute,ho] at hx
      simp only [eval,Operation.arith,hzero] at hx
      cases hx
    refine ⟨Module.speculatable_iff.mpr fun ho => ?_,fun c k ho hc hk => ?_,fun ho => ?_⟩
    · obtain ⟨c,k,hc,hk⟩ := eval_blank m 0 (m.operand i 1) fun h0 => hdiv ho (by rw [h0]; rfl)
      refine ⟨c,k,hc,hk,fun h0 => hdiv ho ?_⟩
      rw [hc,Activation.eval,hk,h0]
      rfl
    · rw [← wrap32_eq_zero_iff]
      have := hdiv ho
      rw [hc,Activation.eval,hk] at this
      exact this
    · by_contra hl
      rw [Operation.execute_alloca_of_lt ho (Int.not_le.mp hl)] at hx
      cases hx
  · rintro ⟨hspec,hdiv,halloca⟩ w a
    have hterm : (m.instr i).op.isTerminator = false := by
      cases ho : (m.instr i).op <;> first | rfl | exact absurd ho hret | exact absurd ho hbr
    have hdivisor : (m.instr i).op = .int .div →
        wrap32 (((m.instr i).operands.map (a.eval m w.globals)).getD 1 .zero).int ≠ 0 := by
      intro ho
      obtain ⟨c,k,hc,hk,-⟩ := Module.speculatable_iff.mp hspec ho
      rw [eval,hc,Activation.eval,hk]
      exact mt (wrap32_eq_zero_iff k).mp (hdiv c k ho hc hk)
    obtain ⟨heap,v,hx⟩ := exists_executed (Nat.le_refl w.heap.size) hterm hcall hphi hknown
      hdivisor (absurd · hload) (absurd · hstore) halloca
    exact ⟨heap,v,hx.result⟩

/-- Division by 2^32, and by 2. -/
def wideDivisor : Module :=
  { name := "wide", globals := [], funcs := [], globalTable := .empty, funcTable := .empty
    instrTable := ⟨#[⟨.int .div,.i32,some 0,none,[.literal 0,.literal 1],none,[]⟩,
      ⟨.int .div,.i32,some 1,none,[.literal 0,.literal 2],none,[]⟩]⟩
    literalTable := ⟨#[⟨.int 7,[0,1]⟩,⟨.int 4294967296,[0]⟩,⟨.int 2,[1]⟩]⟩ }

theorem executes_anywhere_half : wideDivisor.speculatable 1 = true ∧ ∀ (w : World)
    (a : Activation), ∃ heap v,
    Operation.execute (wideDivisor.instr 1)
    ((wideDivisor.instr 1).operands.map (a.eval wideDivisor w.globals)) w.heap = (heap,.ok v) := by
  refine ⟨by decide,(executes_anywhere_iff (by decide) (fun k => ?_)).mpr
    ⟨by decide,fun c k _ hc hk => ?_,fun h => Opcode.noConfusion h⟩⟩
  · exact Opcode.noConfusion
  · cases hc
    cases hk
    decide

/-- The divisor is not zero, but its low 32 bits are. -/
theorem speculated_division_faults : wideDivisor.speculatable 0 = true ∧ ∀ (w : World)
    (a : Activation),
    Operation.execute (wideDivisor.instr 0)
    ((wideDivisor.instr 0).operands.map (a.eval wideDivisor w.globals)) w.heap =
      (w.heap,.error .divideByZero) :=
  ⟨by decide,fun _ _ => rfl⟩

end CMinusF
