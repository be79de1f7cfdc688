import CMinusF.Proofs.Assembly.Element
import CMinusF.Proofs.Assembly.PhiCopies
import CMinusF.Proofs.Machine.BigStep
import CMinusF.Proofs.Machine.Registers
import Mathlib.Logic.Relation

/-! Conditions on floats: a comparison leaves in its slot what the machine computes, and the branch
on it goes where the machine goes, unless it was asked whether something that is not a number
differs. -/
namespace CMinusF.Assembly
open Numeric List

/-- When a comparison of floats sets the flag. -/
def Condition.holds (c : Condition) (x y : Binary32) : Bool :=
  match x.rank, y.rank with
  | some a, some b =>
    match c with
    | .slt => a < b
    | .sle => a ≤ b
    | .seq => a = b
    | .sne => a ≠ b
  | _, _ => false

/-- A processor within a text: the flag of its last comparison of floats, and the lines to come. -/
structure Core where
  cpu : Cpu
  flag : Bool
  rest : List Line

/-- The lines from a label on. -/
def goto (text : List Line) (l : Label) : List Line := text.dropWhile (· ≠ .label l)

def Core.exec (text rest : List Line) (s : Cpu) (f : Bool) : Inst → Option Core
  | .fcmp c x y => some ⟨s,c.holds ⟨.ofBitVec (s.freg x)⟩ ⟨.ofBitVec (s.freg y)⟩,rest⟩
  | .slt d r t => some ⟨s.set d (if (s.get r).toInt < (s.get t).toInt then 1 else 0),f,rest⟩
  | .or d r t => some ⟨s.set d (s.get r ||| s.get t),f,rest⟩
  | .lowBitW d r | .lowBitD d r => some ⟨s.set d (s.get r &&& 1),f,rest⟩
  | .b l => some ⟨s,f,goto text l⟩
  | .bnez r l => some ⟨s,f,if s.get r = 0 then rest else goto text l⟩
  | .bceqz l => some ⟨s,f,if f then rest else goto text l⟩
  | i => (s.exec i).map (⟨·,f,rest⟩)

/-- One line of a text. -/
def Core.step (text : List Line) : Core → Option Core
  | ⟨_,_,[]⟩ => none
  | ⟨s,f,.inst i :: rest⟩ => exec text rest s f i
  | ⟨s,f,_ :: rest⟩ => some ⟨s,f,rest⟩

abbrev Core.Reaches (text : List Line) : Core → Core → Prop :=
  Relation.ReflTransGen fun p q => p.step text = some q

/-- Code that goes from one state to another whatever stands around it. -/
def Moves (s : Cpu) (code : List Inst) (t : Cpu) : Prop :=
  ∀ text rest f, Core.Reaches text ⟨s,f,code.map .inst ++ rest⟩ ⟨t,f,rest⟩

variable {sc : Scope} {s t u : Cpu} {f b : Bool} {text rest before after lines : List Line}
  {code d : List Inst} {l k : Label} {i j : InstrId} {r : Relation} {n : Nat} {v w : Operand}
    {x y : Binary32}

theorem goto_append (h : .label l ∉ before) : goto (before ++ after) l = goto after l :=
  dropWhile_append_of_pos fun _ hx => decide_eq_true fun he => h (he ▸ hx)

theorem goto_inst {x : Inst} : goto (.inst x :: after) l = goto after l := by simp [goto]

theorem goto_label : goto (.label k :: after) l = if k = l then .label k :: after
    else goto after l := by
  by_cases h : k = l <;> simp [goto,h]

namespace Moves

theorem of_run (h : s.run code = some t) : Moves s code t := by
  intro text rest f
  induction code generalizing s with
  | nil =>
    cases h
    exact .refl
  | cons i code ih =>
    obtain ⟨u,hu,h⟩ := Option.bind_eq_some_iff.mp h
    refine .head (b := ⟨u,f,code.map .inst ++ rest⟩) ?_ (ih h)
    cases i with
    | fcmp | slt | or | lowBitW | lowBitD | b | bnez | bceqz => cases hu
    | _ => exact congrArg (Option.map fun s => (⟨s,f,code.map .inst ++ rest⟩ : Core)) hu

theorem head {i : Inst} (h : ∀ text rest f, Core.exec text rest s f i = some ⟨u,f,rest⟩)
    (h' : Moves u code t) : Moves s (i :: code) t :=
  fun text rest f => .head (h text (code.map Line.inst ++ rest) f) (h' text rest f)

theorem either (c₀ c₁ : List Inst) {yes no done : Label} (h : Moves s (if b then c₁ else c₀) t)
    (hno : goto text no = .label no :: (c₀.map .inst ++ .label done :: after))
    (hdone : goto text done = .label done :: after) :
    Core.Reaches text
      ⟨s,b,.inst (.bceqz no) :: .label yes :: (c₁.map .inst ++ .inst (.b done) :: rest)⟩
        ⟨t,b,after⟩ := by
  cases b with
  | false =>
    exact .head (congrArg (fun x => some (⟨s,false,x⟩ : Core)) hno)
      (.head rfl ((h _ _ _).trans (.single rfl)))
  | true =>
    exact .head rfl
      (.head rfl ((h _ _ _).trans (.head (congrArg (fun x => some (⟨t,true,x⟩ : Core)) hdone)
      (.single rfl))))

end Moves

namespace Scope

/-- The lines leave a bit in the slot of an instruction, whatever comes after them. -/
def Leaves (sc : Scope) (i : InstrId) (b : Bool) (s : Cpu) (before lines : List Line) :
    Prop := ∀ after f,
  ∃ t f', Core.Reaches (before ++ (lines ++ after)) ⟨s,f,lines ++ after⟩ ⟨t,f',after⟩ ∧
    sc.bits t (.instr i) = some b.toNat

theorem moves_store {rd : Reg} (h : sc.store (.instr i) rd = .ok code) (hr : rd ≠ .t8)
    (hb : (u.get rd).toNat = b.toNat)
    (ht : (sc.module.instr i).type = .i1 ∨ (sc.module.instr i).type = .i32) :
    ∃ t, Moves u code t ∧ sc.bits t (.instr i) = some b.toNat := by
  obtain ⟨off,x,hoff,hrun⟩ := run_store (s := u) h hr
  have hsize : (sc.module.typeOf (.instr i)).size.toNat = 1 ∨
      (sc.module.typeOf (.instr i)).size.toNat = 4 := by
    rcases ht with ht | ht <;> simp [Module.typeOf,ht,Ty.size]
  refine ⟨_,.of_run hrun,?_⟩
  rw [bits_of_offset hoff,hb]
  refine congrArg some ((Cpu.fetch_put (s := u.set .t8 x) (a := u.address off) ?_ _).trans ?_) <;>
    rcases hsize with hs | hs <;>
    rw [hs] <;> cases b <;> decide

/-- The flag is what the machine computes if both operands are numbers. -/
theorem exec_floatRelationCode (hx : ⟨.ofBitVec (s.freg .ft0)⟩ = x)
    (hy : ⟨.ofBitVec (s.freg .ft1)⟩ = y) :
    Core.exec text rest s f (floatRelationCode r .ft0 .ft1) =
      some ⟨s,Operation.floatCompare r x y && x.rank.isSome && y.rank.isSome,rest⟩ := by
  cases r <;> simp only [floatRelationCode,Core.exec,Condition.holds,Operation.floatCompare,
    Binary32.lt,Binary32.le,Binary32.eq,hx,hy] <;>
    cases x.rank <;> cases y.rank <;> simp

theorem run_loadFloat_of_bits {d : FReg} (h : sc.loadFloat v d = .ok code)
    (ht : sc.module.typeOf v = .float) (hx : sc.bits s v = some x.bits.toNat) :
    ∃ a y, s.run code = some ((s.set .t8 a).setFloat d y) ∧ (⟨.ofBitVec y⟩ : Binary32) = x := by
  obtain ⟨y,a,hrun,hy⟩ := run_loadFloat (s := s) h
  rw [hx,ht] at hy
  exact ⟨a,y,hrun,congrArg Binary32.mk (UInt32.toNat.inj (Option.some.inj (hy rfl)).symm)⟩

/-- A comparison leaves 1 if the relation holds and both operands are numbers, and otherwise 0. -/
theorem leaves_floatCompare (hi : IsInstr sc.module i (.fcmp r) .i1 [v,w])
    (hv : sc.module.typeOf v = .float) (hw : sc.module.typeOf w = .float)
    (hx : sc.bits s v = some x.bits.toNat) (hy : sc.bits s w = some y.bits.toNat)
    (h : sc.select i n = .ok lines)
    (hfresh : ∀ part, .label (.compare sc.func.name part n) ∉ before) :
    sc.Leaves i (Operation.floatCompare r x y && x.rank.isSome && y.rank.isSome) s
      before lines := by
  intro after f
  simp only [select,hi.op,floatCompare,Module.operand,hi.operands] at h
  obtain ⟨c,hc,h⟩ := ok_of_bind h
  obtain ⟨d,hd,h⟩ := ok_of_bind h
  obtain ⟨e,he,h⟩ := ok_of_bind h
  cases h
  obtain ⟨a,x',hrx,rfl⟩ := run_loadFloat_of_bits hc hv hx
  have hsame : sc.bits ((s.set .t8 a).setFloat .ft0 x') w = sc.bits s w :=
    bits_congr rfl fun _ _ => Cpu.fetch_congr fun _ _ => rfl
  obtain ⟨a',y',hry,rfl⟩ := run_loadFloat_of_bits (s := (s.set .t8 a).setFloat .ft0 x') hd hw
    (hsame.trans hy)
  generalize hu : (((s.set .t8 a).setFloat .ft0 x').set .t8 a').setFloat .ft1 y' = u at hry
  have hflag : ∀ text rest, Core.exec text rest u f (floatRelationCode r .ft0 .ft1) =
    some ⟨u,_,rest⟩ := fun _ _ =>
    exec_floatRelationCode (x := ⟨.ofBitVec x'⟩) (y := ⟨.ofBitVec y'⟩) (by rw [← hu]; rfl)
      (by rw [← hu]; rfl)
  generalize (Operation.floatCompare r ⟨.ofBitVec x'⟩ ⟨.ofBitVec y'⟩ && _ && _) = b at hflag ⊢
  -- the bit goes through a register, in one of two places
  have hbit : word ((0 : BitVec 64).toInt + b.toNat) = .ofNat 64 b.toNat := by cases b <;> rfl
  obtain ⟨t,ht,hl⟩ := moves_store (u := u.set .t0 (.ofNat 64 b.toNat)) (b := b) he (by decide)
    (by cases b <;> rfl) (.inl hi.type)
  have hset : Moves u (.addiW .t0 .zero b.toNat :: e) t :=
    .head (fun _ rest f => congrArg (fun x => some (⟨u.set .t0 x,f,rest⟩ : Core)) hbit) ht
  refine ⟨t,b,?_,hl⟩
  simp only [map_append,append_assoc,map_cons,map_nil,cons_append,nil_append]
  refine (Moves.of_run hrx _ _ _).trans ((Moves.of_run hry _ _ _).trans (.head (hflag _ _) ?_))
  refine Moves.either (.addiW .t0 .zero 0 :: e) (.addiW .t0 .zero 1 :: e)
    (by cases b <;> exact hset) ?_ ?_ <;>
    simp [goto_append,hfresh,goto_inst,goto_label]

/-! From the comparison to the branch. -/

theorem run_load_bit {rd : Reg} (h : sc.load (.instr i) rd = .ok code) (hz : rd ≠ .zero)
    (hfp : rd ≠ .fp) (ht : (sc.module.instr i).type = .i1 ∨ (sc.module.instr i).type = .i32)
    (hb : sc.bits s (.instr i) = some b.toNat) :
    s.run code = some (s.set rd (.ofNat 64 b.toNat)) := by
  obtain ⟨off,hoff,h⟩ := ok_of_bind h
  obtain ⟨w,hw,hrun⟩ := Cpu.run_loadSlot_eq (s := s) h hz hfp
  rw [bits_of_offset (slot_eq_ok hoff),← hw,Option.some.injEq] at hb
  have hsize : w.bytes = 1 ∨ w.bytes = 4 := by
    rw [hw]
    rcases ht with ht | ht <;> simp [Module.typeOf,ht,Ty.size]
  rw [hrun,hb]
  rcases hsize with hs | hs <;> rw [hs] <;> cases b <;> rfl

/-- Code that runs through and leaves the register of the condition alone. -/
def Calm (code : List Inst) : Prop := ∀ s : Cpu, ∃ t, s.run code = some t ∧ t.reg .t0 = s.reg .t0

theorem Calm.append (hc : Calm code) (hd : Calm d) : Calm (code ++ d) := by
  intro s
  obtain ⟨t,ht,h⟩ := hc s
  obtain ⟨u,hu,h'⟩ := hd t
  exact ⟨u,by rw [Cpu.run_append,ht]; exact hu,h'.trans h⟩

theorem calm_load (h : sc.load v .a0 = .ok code) : Calm code := fun s =>
  (run_load (s := s) h (by decide) (by decide)).elim fun _ hx => ⟨_,hx.1,rfl⟩

theorem calm_loadSlot {off : Int} {ty : Ty} (h : loadSlot off ty .a0 = .ok code) :
    Calm code := fun s =>
  (Cpu.run_loadSlot (s := s) h (by decide) (by decide)).elim fun _ hx => ⟨_,hx.1,rfl⟩

theorem calm_storeSlot {off : Int} {ty : Ty} (h : storeSlot off ty .a0 = .ok code) :
    Calm code := fun s =>
  (Cpu.run_storeSlot (s := s) h (by decide)).elim fun _ hx => ⟨_,hx,rfl⟩

theorem calm_loadFloat (h : sc.loadFloat v .fa0 = .ok code) : Calm code := fun s =>
  (run_loadFloat (s := s) h).elim fun _ h => h.elim fun _ hx => ⟨_,hx.1,rfl⟩

theorem calm_loadFloatSlot (off : Int) : Calm (loadFloatSlot off .fa0) := fun s =>
  (Cpu.run_loadFloatSlot (s := s) off .fa0).elim fun _ hx => ⟨_,hx,rfl⟩

theorem calm_storeFloatSlot (off : Int) : Calm (storeFloatSlot off .fa0) := fun s =>
  (Cpu.run_storeFloatSlot (s := s) off .fa0).elim fun _ hx => ⟨_,hx,rfl⟩

theorem calm_mapM {α : Type} {g : α → Except Cause (List Inst)}
    (hg : ∀ a code, g a = .ok code → Calm code) {l : List α} {codes : List (List Inst)}
    (h : l.mapM g = .ok codes) : Calm codes.flatten := fun s =>
  run_mapM (Q := fun _ t => t.reg .t0 = s.reg .t0) (fun a _ t code hc ht => by
    obtain ⟨u,hu,h⟩ := hg a code hc t
    exact ⟨u,hu,h.trans ht⟩) h rfl

/-- Assigning the phis does not disturb the condition, which has been read before. -/
theorem calm_assignPhis {x : BlockId} (h : sc.assignPhis x = .ok code) : Calm code := by
  obtain ⟨c,hc,h⟩ := ok_of_bind h
  obtain ⟨d,hd,h⟩ := ok_of_bind h
  cases h
  refine .append (calm_mapM (fun p code h => ?_) hc) (calm_mapM (fun p code h => ?_) hd)
  · simp only [stage] at h
    split at h <;> obtain ⟨e,he,h⟩ := ok_of_bind h
    · cases h
      exact .append (calm_loadFloat he) (calm_storeFloatSlot _)
    · obtain ⟨g,hg,h⟩ := ok_of_bind h
      cases h
      exact .append (calm_load he) (calm_storeSlot hg)
  · simp only [assign] at h
    split at h <;> split at h <;> obtain ⟨e,he,h⟩ := ok_of_bind h <;> obtain ⟨g,hg,h⟩ :=
      ok_of_bind h <;>
      obtain ⟨off,-,hg⟩ := ok_of_bind hg <;> cases h
    · cases he
      cases hg
      exact .append (calm_loadFloatSlot _) (calm_storeFloatSlot _)
    · cases hg
      exact .append (calm_loadFloat he) (calm_storeFloatSlot _)
    · exact .append (calm_loadSlot he) (calm_storeSlot hg)
    · exact .append (calm_load he) (calm_storeSlot hg)

theorem reaches_branch (hi : IsInstr sc.module i .br .void [.instr j,v,w])
    (hj : (sc.module.instr j).type = .i1) (hb : sc.bits s (.instr j) = some b.toNat)
    (h : sc.select i n = .ok lines) (text rest : List Line) (f : Bool) :
    ∃ t, Core.Reaches text ⟨s,f,lines ++ rest⟩
      ⟨t,f,goto text (sc.blockLabel (if b then v else w))⟩ := by
  have hcond : sc.module.isCondBr i = true := by simp [Module.isCondBr,hi.op,hi.operands]
  cases hcode : sc.branch i with
  | error => simp [select,hi.op,hcode,Except.map] at h
  | ok code =>
    obtain rfl : code.map .inst = lines := by simpa [select,hi.op,hcode,Except.map] using h
    simp only [branch,hcond,Module.operand,hi.operands,if_true] at hcode
    obtain ⟨c,hc,hcode⟩ := ok_of_bind hcode
    obtain ⟨d,hd,hcode⟩ := ok_of_bind hcode
    cases hcode
    have hload := run_load_bit hc (by decide) (by decide) (.inl hj) hb
    obtain ⟨t,ht,hcalm⟩ := calm_assignPhis hd (s.set .t0 (.ofNat 64 b.toNat))
    have hget : t.get .t0 = .ofNat 64 b.toNat := (Cpu.get_of_ne (by decide)).trans hcalm
    refine ⟨t.set .t0 (t.get .t0 &&& 1),?_⟩
    rw [map_append,map_append,append_assoc,append_assoc]
    refine (Moves.of_run hload _ _ _).trans ((Moves.of_run ht _ _ _).trans (.head rfl ?_))
    rw [hget]
    cases b with
    | true => exact .single rfl
    | false => exact .head rfl (.single rfl)

end Scope

/-- A comparison of floats leaves what the machine computes, and a branch on it goes where the
machine goes, except that something that is not a number does not differ from anything. -/
theorem float_comparison_exact (sc : Scope) (hi : IsInstr sc.module i (.fcmp r) .i1 [v,w])
    (hv : sc.module.typeOf v = .float) (hw : sc.module.typeOf w = .float) (x y : Binary32) :
    let b := Operation.floatCompare r x y
    let b' := b && x.rank.isSome && y.rank.isSome
    (b' = b ↔ ¬(r = .ne ∧ (x.rank = none ∨ y.rank = none))) ∧
    (∀ heap, Operation.execute (sc.module.instr i) [.ofFloat x,.ofFloat y] heap =
      (heap,.ok (.ofBool b))) ∧
    ∀ s, sc.bits s v = some x.bits.toNat → sc.bits s w = some y.bits.toNat →
      ∀ n lines, sc.select i n = .ok lines →
      ∀ before, (∀ part, .label (.compare sc.func.name part n) ∉ before) →
        sc.Leaves i b' s before lines ∧
      ∀ t yes no, IsInstr sc.module t .br .void [.instr i,.block yes,.block no] →
        (∀ world a, Activation.eval sc.module world.globals a (.instr i) = .ofBool b →
          Run.action sc.module world a t =
          .go world (a.enter sc.module world.globals (some a.block) (if b then yes else no))) ∧
        ∀ k jump, sc.select t k = .ok jump → ∀ after f, ∃ u f',
          Core.Reaches (before ++ (lines ++ (jump ++ after))) ⟨s,f,lines ++ (jump ++ after)⟩
            ⟨u,f',goto (before ++ (lines ++ (jump ++ after)))
              (sc.blockLabel (.block (if b' then yes else no)))⟩ := by
  intro b b'
  refine ⟨?_,fun heap => by simp only [Operation.execute,hi.op]; rfl,
    fun s hx hy n lines h before hfresh => ?_⟩
  · simp only [b,b']
    cases r <;> simp only [Operation.floatCompare,Binary32.lt,Binary32.le,Binary32.eq] <;>
      cases x.rank <;> cases y.rank <;> simp
  · have hleaves := Scope.leaves_floatCompare hi hv hw hx hy h hfresh
    refine ⟨hleaves,fun t yes no ht => ⟨fun world a ha => Run.action_br_to ht.op ?_,
      fun k jump hjump after f => ?_⟩⟩
    · have hodd : Run.isOdd (Datum.ofBool b).int = b := by cases b <;> rfl
      rw [show (sc.module.instr t).operands = _ from ht.operands,Run.branchTarget,ha,hodd]
      cases b <;> rfl
    · obtain ⟨t',f',hr,hb⟩ := hleaves (jump ++ after) f
      obtain ⟨u,hu⟩ := Scope.reaches_branch ht hi.type hb hjump
        (before ++ (lines ++ (jump ++ after))) after f'
      refine ⟨u,f',hr.trans ?_⟩
      cases hb' : b' <;> simpa [b',b,hb'] using hu

theorem exists_floatTest :
    ∃ m fr lines, Module.ofSource "test" "int f(float x) { if (x) return 1; return 0; }" = .ok m ∧
    IsInstr m 3 (.fcmp .ne) .i1 [.instr 2,.literal 0] ∧ m.typeOf (.instr 2) = .float ∧
    (m.literal 0).value = .float ⟨0⟩ ∧
    Frame.layout m 4 = .ok fr ∧ Scope.select ⟨m,fr⟩ 3 0 = .ok lines := by
  obtain ⟨m,hm,hP⟩ := Module.exists_ofSource "test" "int f(float x) { if (x) return 1; return 0; }"
    (fun m => ((m.instr 3).op = .fcmp .ne ∧ (m.instr 3).type = .i1 ∧
      m.operands 3 = [.instr 2,.literal 0]) ∧ m.typeOf (.instr 2) = .float ∧
      (m.literal 0).value = .float ⟨0⟩ ∧
        ((Frame.layout m 4).toOption.bind fun fr => (Scope.select ⟨m,fr⟩ 3 0).toOption).isSome)
    (by decide +kernel)
  obtain ⟨⟨h1,h2,h3⟩,hv,hz,hl⟩ := of_decide_eq_true hP
  cases hfr : Frame.layout m 4 with
  | error => simp [hfr,Except.toOption] at hl
  | ok fr =>
    cases hs : Scope.select ⟨m,fr⟩ 3 0 with
    | error => simp [hfr,hs,Except.toOption] at hl
    | ok lines => exact ⟨m,fr,lines,hm,⟨h1,h2,h3⟩,hv,hz,hfr,hs⟩

theorem float_comparison_exact_half :
    ∃ m fr lines, Module.ofSource "test" "int f(float x) { if (x) return 1; return 0; }" = .ok m ∧
    IsInstr m 3 (.fcmp .ne) .i1 [.instr 2,.literal 0] ∧ Frame.layout m 4 = .ok fr ∧
    Scope.select ⟨m,fr⟩ 3 0 = .ok lines ∧
    ∀ s, Scope.bits ⟨m,fr⟩ s (.instr 2) = some 0x3f000000 →
      Scope.Leaves ⟨m,fr⟩ 3 true s [] lines := by
  obtain ⟨m,fr,lines,hm,hi,hv,hz,hfr,hl⟩ := exists_floatTest
  have hw : m.typeOf (.literal 0) = .float := congrArg Constant.type hz
  obtain ⟨-,-,h⟩ := float_comparison_exact ⟨m,fr⟩ hi hv hw ⟨0x3f000000⟩ ⟨0⟩
  exact ⟨m,fr,lines,hm,hi,hfr,hl,fun s hs =>
    (h s hs (by simp [Scope.bits,hz]) 0 lines hl [] fun _ => not_mem_nil).1⟩

/-- The machine takes something that is not a number for true, and the code for false. -/
theorem undefined_condition_fails :
    ∃ m fr lines, Module.ofSource "test" "int f(float x) { if (x) return 1; return 0; }" = .ok m ∧
    Frame.layout m 4 = .ok fr ∧ Scope.select ⟨m,fr⟩ 3 0 = .ok lines ∧
    (∀ heap, Operation.execute (m.instr 3) [.ofFloat ⟨0x7fc00000⟩,.ofFloat ⟨0⟩] heap =
      (heap,.ok (.ofBool true))) ∧
    ∀ s, Scope.bits ⟨m,fr⟩ s (.instr 2) = some 0x7fc00000 →
      Scope.Leaves ⟨m,fr⟩ 3 false s [] lines := by
  obtain ⟨m,fr,lines,hm,hi,hv,hz,hfr,hl⟩ := exists_floatTest
  have hw : m.typeOf (.literal 0) = .float := congrArg Constant.type hz
  refine ⟨m,fr,lines,hm,hfr,hl,fun heap => ?_,fun s hs => ?_⟩
  · simp only [Operation.execute,hi.op]
    rfl
  · exact Scope.leaves_floatCompare (x := ⟨0x7fc00000⟩) (y := ⟨0⟩) hi hv hw hs
      (by simp [Scope.bits,hz]) hl fun _ => not_mem_nil

end CMinusF.Assembly
