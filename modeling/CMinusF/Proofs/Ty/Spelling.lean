import CMinusF.Ty
import Mathlib.Data.List.Induction
import Std.Data.String.ToInt

/-! Types are spelled apart: read from its end, a text says at each point what comes next. -/
namespace CMinusF.Ty
open List

/-- The types that are made from the simple ones. -/
inductive Built : Ty → Prop
  | void : Built .void
  | i1 : Built .i1
  | i32 : Built .i32
  | float : Built .float
  | label : Built .label
  | pointer {a : Ty} : Built a → Built (.pointer a)
  | array (n : Int) {a : Ty} : Built a → Built (.array n a)
  | function {r : Ty} {ps : List Ty} : Built r → (∀ p ∈ ps, Built p) → Built (.function r ps)

def code (a : Ty) : List Char := a.text.toList.reverse

def row (ps : List Ty) : List Char := (", ".intercalate (texts ps)).toList.reverse

theorem texts_eq (ps : List Ty) : texts ps = ps.map text := by
  induction ps with
  | nil => rfl
  | cons p ps ih => rw [texts,ih,map_cons]

theorem allPrintable_eq (ps : List Ty) : allPrintable ps = ps.all printable := by
  induction ps with
  | nil => rfl
  | cons p ps ih => rw [allPrintable,ih,all_cons]

variable {a r : Ty} {ps : List Ty}

theorem Built.printable (h : Built a) : a.printable = true := by
  induction h with
  | pointer _ ih => exact ih
  | function _ _ _ ih => rw [Ty.printable,allPrintable_eq,all_eq_true]; exact ih
  | _ => rfl

theorem code_pointer (h : Built a) : code (.pointer a) = '*' :: code a := by
  simp [code,text,h.printable]

theorem code_array (n : Int) (a : Ty) :
    code (.array n a) =
      ']' :: (code a ++ ' ' :: 'x' :: ' ' :: (n.repr.toList.reverse ++ ['['])) := by
  simp [code,text]

theorem code_function (h : ∀ p ∈ ps, Built p) :
    code (.function r ps) = ')' :: (row ps ++ '(' :: ' ' :: code r) := by
  have hps : allPrintable ps = true := by
    rw [allPrintable_eq,all_eq_true]
    exact fun p hp => (h p hp).printable
  simp [code,text,row,hps]

def before (ps : List Ty) : List Char := if ps = [] then [] else ' ' :: ',' :: row ps

theorem row_concat (ps : List Ty) (p : Ty) : row (ps ++ [p]) = code p ++ before ps := by
  unfold before row code
  rw [texts_eq,texts_eq,map_append,map_singleton]
  split
  · subst_vars
    simp
  · rename_i hne
    rw [String.intercalate_append_of_ne_nil (mt map_eq_nil_iff.mp hne) (cons_ne_nil _ _)]
    simp

def last : Ty → Char
  | .pointer _ => '*'
  | .array _ _ => ']'
  | .function _ _ => ')'
  | .void => 'd'
  | .i1 => '1'
  | .i32 => '2'
  | .float => 't'
  | _ => 'l'

theorem Built.head? (h : Built a) (u : List Char) : (code a ++ u).head? = some (last a) := by
  cases h with
  | pointer h => simp [code_pointer h,last]
  | array n => simp [code_array,last]
  | function _ h => simp [code_function h,last]
  | _ => rfl

/-- The text of the type ends where it does whatever stands before it. -/
def Decodes (a : Ty) : Prop := ∀ {b}, Built b → ∀ {u v}, code a ++ u = code b ++ v → a = b ∧ u = v

theorem row_inj {qs : List Ty} {u v : List Char} (hps : ∀ p ∈ ps, Built p ∧ Decodes p)
    (hqs : ∀ q ∈ qs, Built q) (h : row ps ++ '(' :: u = row qs ++ '(' :: v) : ps = qs ∧ u = v := by
  have hparen : ∀ {p ps u v}, Built p → row (ps ++ [p]) ++ u ≠ '(' :: v := by
    intro p ps u v hp h
    have hhead := hp.head? (before ps ++ u)
    rw [← append_assoc,← row_concat,h] at hhead
    cases hp <;> simp [last] at hhead
  have hnil : row [] = [] := by simp [row,texts]
  induction ps using reverseRecOn generalizing qs u v with
  | nil =>
    induction qs using reverseRecOn with
    | nil =>
      grind
    | append_singleton qs q _ => grind
  | append_singleton ps p ih =>
    have hp := hps p (by simp)
    induction qs using reverseRecOn with
    | nil =>
      cases hparen hp.1 h
    | append_singleton qs q _ =>
      rw [row_concat,row_concat,append_assoc,append_assoc] at h
      obtain ⟨rfl,h⟩ := hp.2 (hqs q (by simp)) h
      unfold before at h
      split at h <;> split at h <;> simp at h <;> subst_vars
      · exact ⟨rfl,rfl⟩
      · obtain ⟨rfl,rfl⟩ :=
          ih (fun p hp => hps p (mem_append_left _ hp)) (fun q hq => hqs q (mem_append_left _ hq)) h
        exact ⟨rfl,rfl⟩

theorem append_cons_inj {α : Type} {c : α} {x y u v : List α} (hx : c ∉ x) (hy : c ∉ y)
    (h : x ++ c :: u = y ++ c :: v) : x = y ∧ u = v := by
  obtain ⟨as,rfl,h'⟩ | ⟨as,rfl,h'⟩ := append_eq_append_iff.mp h
  · cases as with
    | nil => exact ⟨(append_nil x).symm,(cons.inj h').2⟩
    | cons d as => exact absurd ((cons.inj h').1 ▸ by simp) hy
  · cases as with
    | nil => exact ⟨append_nil y,(cons.inj h').2.symm⟩
    | cons d as => exact absurd ((cons.inj h').1 ▸ by simp) hx

theorem bracket_notMem_repr (n : Int) : '[' ∉ n.repr.toList.reverse := by
  have hdigits (k : Nat) : '[' ∉ Nat.toDigits 10 k := fun h =>
    absurd (Nat.isDigit_of_mem_toDigits (by decide) (by decide) h) (by decide)
  rw [mem_reverse,Int.repr_eq_if]
  split <;> simp [hdigits]

theorem Built.decodes (h : Built a) : Decodes a := by
  have hlast : ∀ {a b u v}, Built a → Built b → code a ++ u = code b ++ v → last a = last b :=
    fun ha hb h =>
    Option.some.inj ((ha.head? _).symm.trans (h ▸ hb.head? _))
  induction h with
  | pointer ha ih =>
    intro b hb u v h
    have hl := hlast ha.pointer hb h
    cases hb with
    | pointer hb =>
      rw [code_pointer ha,code_pointer hb] at h
      obtain ⟨rfl,rfl⟩ := ih hb (cons.inj h).2
      exact ⟨rfl,rfl⟩
    | _ => simp [last] at hl
  | array n ha ih =>
    intro b hb u v h
    have hl := hlast (ha.array n) hb h
    cases hb with
    | array k hb =>
      simp only [code_array,cons_append,append_assoc,cons.injEq,true_and] at h
      obtain ⟨rfl,h'⟩ := ih hb h
      simp only [cons.injEq,true_and] at h'
      obtain ⟨hn,rfl⟩ := append_cons_inj (bracket_notMem_repr n) (bracket_notMem_repr k) h'
      rw [Int.repr_injective (String.toList_injective (reverse_inj.mp hn))]
      exact ⟨rfl,rfl⟩
    | _ => simp [last] at hl
  | function hr hps ihr ihps =>
    intro b hb u v h
    have hl := hlast (hr.function hps) hb h
    cases hb with
    | function hs hqs =>
      simp only [code_function hps,code_function hqs,cons_append,append_assoc,cons.injEq,
        true_and] at h
      obtain ⟨rfl,h'⟩ := row_inj (fun p hp => ⟨hps p hp,ihps p hp⟩) hqs h
      obtain ⟨rfl,rfl⟩ := ihr hs (cons.inj h').2
      exact ⟨rfl,rfl⟩
    | _ => simp [last] at hl
  | _ =>
    intro b hb u v h
    have hl := hlast (by constructor) hb h
    cases hb <;> first
      | simp only [append_cancel_left_eq,true_and] at h ⊢; exact h
      | simp [last] at hl

/-- Types are the same if and only if their texts are. -/
theorem same_iff_text_eq {a b : Ty} (ha : Built a) (hb : Built b) :
    a.same b = true ↔ a.text = b.text := by
  rw [same_eq_true_iff]
  refine ⟨fun h => h ▸ rfl,fun h => (ha.decodes hb (u := []) (v := []) ?_).1⟩
  rw [code,code,h]

/-- A pointer to a function and a function that returns a pointer, each with a function among its
parameters. -/
theorem same_iff_text_eq_nested :
    let f : Ty := .function .void [.i32,.array (-3) .float]
    let a : Ty := .pointer (.function .i32 [.pointer f,.i1])
    let b : Ty := .function (.pointer .i32) [.pointer f,.i1]
    Built a ∧ Built b ∧ (a.same b = true ↔ a.text = b.text) := by
  intro f a b
  have hf : Built f := .function .void (by simp [Built.i32,Built.array,Built.float])
  have hps : ∀ p ∈ [Ty.pointer f,.i1], Built p := by simp [hf.pointer,Built.i1]
  have ha : Built a := (Built.i32.function hps).pointer
  have hb : Built b := Built.i32.pointer.function hps
  exact ⟨ha,hb,same_iff_text_eq ha hb⟩

end CMinusF.Ty
