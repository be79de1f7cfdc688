import CMinusF.Assembly.Listing
import CMinusF.Flow.Purity
import Mathlib.Data.List.Basic

/-! The code of one function. It is whole: every block has its label and every instruction its
comment and the lines selected for it, in the order of the layout. It starts with the function's
symbol, no other line of it is a directive, and a function that has none is named in the failure. -/
namespace CMinusF
variable {x : String} {fr fr' : Frame} {i : InstrId} {ls : List Line} {s : Scope} {n : Nat}

/-- A result is as `Q` says, and a failure as `E` says. -/
def Meets {α : Type} (E : Failure → Prop) (Q : α → Prop) : Except Failure α → Prop
  | .ok a => Q a
  | .error e => E e

namespace Meets
variable {α β : Type} {E : Failure → Prop} {Q : α → Prop} {r : Except Failure α}

theorem bind {S : β → Prop} {g : α → Except Failure β} (h : Meets E Q r)
    (hg : ∀ a, Q a → Meets E S (g a)) :
    Meets E S (r >>= g) := by
  cases r with
  | ok a => exact hg a h
  | error e => exact h

theorem keep (h : Meets E Q r) : Meets E (fun a => r = .ok a ∧ Q a) r := by
  cases r with
  | ok a => exact ⟨rfl,h⟩
  | error e => exact h

theorem mono {R : α → Prop} (h : Meets E Q r) (hQ : ∀ a, Q a → R a) : Meets E R r := by
  cases r with
  | ok a => exact hQ a h
  | error e => exact h

theorem foldlM {Q : List β → α → Prop} {g : α → β → Except Failure α}
    (hg : ∀ a b l, Q (b :: l) a → Meets E (Q l) (g a b)) (l : List β) {a : α} (ha : Q l a) :
    Meets E (Q []) (l.foldlM g a) := by
  induction l generalizing a with
  | nil => exact ha
  | cons b l ih =>
    exact (hg a b l ha).bind fun _ h => ih h

theorem blame (m : Module) (f : FuncId) (i : Option InstrId) {r : Except Cause α}
    (h : ∀ a, r = .ok a → Q a) (he : ∀ c, r = .error c → E (.locate m f i c)) :
    Meets E Q (m.blame f i r) := by
  cases r with
  | ok a => exact h a rfl
  | error c => exact he c rfl

theorem verify (m : Module) (f : FuncId) :
    Meets (·.func = (m.func f).name) (fun _ => True) (m.verify f) := by
  unfold Module.verify
  split
  · exact trivial
  · exact (rfl : (m.func f).name = _)

end Meets

namespace Assembly
variable {m : Module} {f : FuncId}

/-! The frame is that of the function. -/

theorem Frame.func_place {t : Ty} {name : String} {kind : SlotKind} {off : Int}
    (h : fr.place t name kind = .ok (fr',off)) : fr'.func = fr.func := by
  unfold Frame.place at h
  split at h
  · cases h
  · cases h
    rfl

theorem Frame.func_placeArg {i : Nat} (h : Frame.placeArg m fr i = .ok fr') :
    fr'.func = fr.func := by
  unfold Frame.placeArg at h
  dsimp only at h
  cases hp : fr.place (m.typeOf (.arg fr.func i)) (m.refText (.arg fr.func i)) .arg with
  | error e =>
    rw [hp] at h
    cases h
  | ok r =>
    rw [hp] at h
    have hr := Frame.func_place hp
    cases h
    exact hr

theorem Frame.values_place {t : Ty} {name : String} {kind : SlotKind} {off : Int}
    (h : fr.place t name kind = .ok (fr',off)) : fr'.values = fr.values := by
  unfold Frame.place at h
  split at h
  · cases h
  · cases h
    rfl

/-- The frame is of `f`, and all its values but those of `is` have a slot. -/
def Frame.Covers (m : Module) (f : FuncId) (is : List InstrId) (fr : Frame) : Prop :=
  fr.func = f ∧ ∀ i ∈ m.instrs f, (m.instr i).type.isVoid = false → i ∈ is ∨
    (fr.values[i]?).isSome = true

theorem Frame.Covers.placeInstr {is : List InstrId} (hc : fr.Covers m f (i :: is))
    (h : fr.placeInstr m i = .ok fr') : fr'.Covers m f is := by
  have hgoal : fr'.func = fr.func ∧ ∀ j, (m.instr j).type.isVoid = false → j = i ∨
      (fr.values[j]?).isSome → (fr'.values[j]?).isSome := by
    unfold Frame.placeInstr at h
    dsimp only at h
    split at h
    · cases h
      exact ⟨rfl,by grind⟩
    · cases hp : fr.place (m.instr i).type (m.refText (.instr i)) .value with
      | error e =>
        rw [hp] at h
        cases h
      | ok r =>
        rw [hp] at h
        have hv := Frame.values_place hp
        refine ⟨?_,fun j _ hj => ?_⟩ <;> have hr := Frame.func_place hp <;>
          dsimp only [Bind.bind] at h
        · split at h <;> cases h
          · exact hr
          · split <;> exact hr
        · have : (r.1.values.insert i r.2)[j]?.isSome := by
            rw [Std.TreeMap.getElem?_insert]
            grind
          split at h <;> cases h
          · exact this
          · split <;> exact this
  refine ⟨hgoal.1.trans hc.1,fun j hj hv => ?_⟩
  rcases hc.2 j hj hv with h | h
  · grind
  · exact .inr (hgoal.2 j hv (.inr h))

theorem Frame.meets_layout (m : Module) (f : FuncId) :
    Meets (·.func = (m.func f).name) (Frame.Covers m f []) (Frame.layout m f) := by
  refine Meets.bind (Q := fun fr : Frame => fr.func = f) ?_ fun fr hfr => ?_
  · refine Meets.foldlM (Q := fun _ (fr : Frame) => fr.func = f) (fun fr i _ hfr => ?_) _ rfl
    exact Meets.blame m f none (fun fr' h => (Frame.func_placeArg h).trans hfr) fun _ _ => rfl
  · refine Meets.bind (Q := Frame.Covers m f []) ?_ fun fr hfr => ?_
    · refine Meets.foldlM (fun fr i _ hfr => ?_) _ ⟨hfr,fun i hi _ => .inl hi⟩
      exact Meets.blame m f (some i) (fun fr' h => hfr.placeInstr h) fun _ _ => rfl
    · dsimp only
      have hshadows : ((shadowedPhis m f).foldl (Frame.placeShadow m) fr).Covers m f [] :=
        List.foldlRecOn (shadowedPhis m f) (Frame.placeShadow m) hfr fun _ h _ _ => ⟨h.1,h.2⟩
      split
      · exact (rfl : (m.func f).name = _)
      · exact ⟨hshadows.1,hshadows.2⟩

/-! No line of the body is a directive. -/

def Plain (ls : List Line) : Prop := ∀ d, .directive d ∉ ls

theorem Plain.append {ls' : List Line} (h : Plain ls) (h' : Plain ls') : Plain (ls ++ ls') := by
  intro d hd
  rcases List.mem_append.mp hd with hd | hd
  · exact h d hd
  · exact h' d hd

theorem plain_map_inst (is : List Inst) : Plain (is.map .inst) := by
  simp [Plain]

theorem plain_map_comment (ts : List String) : Plain (ts.map .comment) := by
  simp [Plain]

theorem Plain.comment (h : Plain ls) (t : String) : Plain (.comment t :: ls) := by
  simpa [Plain] using h

theorem Plain.label (h : Plain ls) (l : Label) : Plain (.label l :: ls) := by
  simpa [Plain] using h

theorem Scope.plain_floatCompare {r : Relation}
    (h : s.floatCompare i r n = .ok ls) : Plain ls := by
  unfold Scope.floatCompare at h
  dsimp only [Bind.bind,Except.bind] at h
  split at h
  · cases h
  · split at h
    · cases h
    · split at h
      · cases h
      · cases h
        simp [Plain]

theorem Scope.plain_select (h : s.select i n = .ok ls) : Plain ls := by
  have hmap : ∀ {r : Except Cause (List Inst)}, r.map (·.map .inst) = .ok ls → Plain ls := by
    intro r hr
    cases r with
    | error c => cases hr
    | ok is =>
      cases hr
      exact plain_map_inst is
  unfold Scope.select at h
  dsimp only at h
  split at h
  case h_9 => exact Scope.plain_floatCompare h
  case h_10 =>
    cases h
    simp [Plain]
  case h_16 => cases h
  all_goals exact hmap h

/-! The code is whole. -/

/-- The code of instructions in order: for each a comment that spells it and the lines selected for
it; `n` counts the comparisons of floats before them. -/
inductive Scope.Emits (s : Scope) : Nat → List InstrId → List Line → Prop where
  | nil {n : Nat} : Emits s n [] []
  | cons {n : Nat} {i : InstrId} {is : List InstrId} {code rest : List Line} :
      s.select i n = .ok code →
      Emits s (if (s.module.instr i).op.isFloatCompare then n + 1 else n) is rest →
      Emits s n (i :: is) (.comment (s.module.instrText i) :: code ++ rest)

/-- The code of blocks in order: for each its label and the code of its instructions. -/
inductive Scope.EmitsBlocks (s : Scope) : Nat → List BlockId → List Line → Prop where
  | nil {n : Nat} : EmitsBlocks s n [] []
  | cons {n : Nat} {b : BlockId} {bs : List BlockId} {code rest : List Line} :
      s.Emits n (s.module.block b).instrs code →
      EmitsBlocks s (n + (s.module.block b).instrs.countP
        fun i => (s.module.instr i).op.isFloatCompare) bs rest →
      EmitsBlocks s n (b :: bs) (.label (s.blockLabel (.block b)) :: code ++ rest)

/-- The lines are the code of a function: its symbol, the map of its frame, the code that opens the
frame and stores the arguments, all its blocks, and the way out. -/
def IsCodeOf (m : Module) (f : FuncId) (ls : List Line) : Prop :=
  ∃ frame prologue body, Frame.layout m f = .ok frame ∧
    Scope.prologue ⟨m,frame⟩ = .ok prologue ∧
    Scope.EmitsBlocks ⟨m,frame⟩ 0 (m.func f).layout body ∧
    ls = [.directive (.globl (m.func f).name),.directive (.function (m.func f).name),
        .label (.symbol (m.func f).name)] ++
      (frame.describe.map .comment ++ prologue.map .inst ++ body ++
        .label (.leave (m.func f).name) :: (Scope.closeFrame frame.size).map .inst)

theorem Scope.Emits.plain {is : List InstrId} (h : s.Emits n is ls) : Plain ls := by
  induction h with
  | nil => simp [Plain]
  | cons hcode _ ih => exact ((Scope.plain_select hcode).comment _).append ih

theorem Scope.EmitsBlocks.plain {bs : List BlockId} (h : s.EmitsBlocks n bs ls) : Plain ls := by
  induction h with
  | nil => simp [Plain]
  | cons hcode _ ih => exact (hcode.plain.label _).append ih

theorem Scope.meets_instrLines (hs : s.frame.func = f) (n : Nat) (is : List InstrId) :
    Meets (·.func = (s.module.func f).name) (s.Emits n is) (s.instrLines n is) := by
  induction is generalizing n with
  | nil => exact .nil
  | cons i is ih =>
    rw [Scope.instrLines,hs]
    refine Meets.bind (Meets.blame (Q := fun code => s.select i n = .ok code) _ f (some i)
      (fun _ => id) fun _ _ => rfl) fun code hcode => ?_
    exact (ih _).bind fun rest hrest => .cons hcode hrest

theorem Scope.meets_blockLines (hs : s.frame.func = f) (n : Nat) (bs : List BlockId) :
    Meets (·.func = (s.module.func f).name) (s.EmitsBlocks n bs) (s.blockLines n bs) := by
  induction bs generalizing n with
  | nil => exact .nil
  | cons b bs ih =>
    refine (Scope.meets_instrLines hs n _).bind fun code hcode => ?_
    exact (ih _).bind fun rest hrest => .cons hcode hrest

theorem meets_functionLines (m : Module) (f : FuncId) :
    Meets (·.func = (m.func f).name) (IsCodeOf m f) (functionLines m f) := by
  refine (Meets.verify m f).bind fun _ _ => (Frame.meets_layout m f).keep.bind fun frame h => ?_
  obtain ⟨hframe,rfl,-⟩ := h
  refine Meets.bind (Meets.blame (Q := fun is => Scope.prologue ⟨m,frame⟩ = .ok is) m _ none
    (fun _ => id) fun _ _ => rfl) fun prologue hprologue => ?_
  refine (Scope.meets_blockLines rfl 0 _).bind fun body hbody => ?_
  exact ⟨frame,prologue,body,hframe,hprologue,hbody,by simp [Scope.func,Scope.leaveLabel]⟩

/-- The symbol of a function stands once in its own code, and in that of no other. -/
theorem IsCodeOf.count (h : IsCodeOf m f ls) (y : String) :
    ls.count (.directive (.function y)) = if (m.func f).name = y then 1 else 0 := by
  obtain ⟨frame,prologue,body,-,-,hbody,rfl⟩ := h
  have hplain := ((((plain_map_comment frame.describe).append (plain_map_inst prologue)).append
    hbody.plain).append ((plain_map_inst (Scope.closeFrame frame.size)).label
      (.leave (m.func f).name)))
  rw [List.count_append,List.count_eq_zero.mpr (hplain (.function y))]
  simp [List.count_cons]

theorem count_header (m : Module) (y : String) :
    (header m).count (.directive (.function y)) = 0 := by
  refine List.count_eq_zero.mpr fun h => ?_
  unfold header at h
  split at h <;> simp [globalLines] at h

end Assembly
end CMinusF
