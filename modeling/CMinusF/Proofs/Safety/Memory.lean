import CMinusF.Proofs.Machine.Pairing

/-! Memory as the code of a program uses it. Every cell holds a number that fits in 32 bits; some
objects, the slots, hold the address of an array, and no address in them or in a register leads to a
slot. -/
namespace CMinusF
open Numeric

namespace Safety

section
variable (h : Heap) (slots : Nat → Prop)

/-- An address within an object that is no slot, or behind it. -/
def Element (a : Address) : Prop := ∃ o, a.object = some o ∧ o < h.size ∧ ¬ slots o ∧ 0 ≤ a.index

def First (a : Address) : Prop := Element h slots a ∧ a.index = 0

/-- The address of an object that is a slot if `p` holds. -/
def Variable (p : Prop) (a : Address) : Prop := ∃ o, a = ⟨some o,0⟩ ∧ o < h.size ∧ (slots o ↔ p)

/-- The object at an address holds an address itself. -/
def Filled (a : Address) : Prop :=
  ∀ o, a.object = some o → ((h.get o).cells.get 0).address.object ≠ none

structure Memory : Prop where
  word : ∀ o j, IsWord ((h.get o).cells.get j).int
  length : ∀ o < h.size, 1 ≤ (h.get o).length
  slots_lt : ∀ o, slots o → o < h.size
  held : ∀ o, slots o → ((h.get o).cells.get 0).address.object ≠ none →
    First h slots ((h.get o).cells.get 0).address

end

/-- How memory changes: nothing is taken away, and slots that hold an address keep one. -/
structure Later (h : Heap) (slots : Nat → Prop) (h' : Heap) (slots' : Nat → Prop) : Prop where
  size : h.size ≤ h'.size
  length : ∀ o < h.size, (h'.get o).length = (h.get o).length
  same : ∀ o < h.size, (slots' o ↔ slots o)
  filled : ∀ o, slots o → ((h.get o).cells.get 0).address.object ≠ none →
    ((h'.get o).cells.get 0).address.object ≠ none

section
variable {h h' h'' : Heap} {slots slots' slots'' : Nat → Prop} {a : Address} {p : Prop}
  {o i : Nat} {v : Datum}

theorem Later.refl (h : Heap) (slots : Nat → Prop) : Later h slots h slots :=
  ⟨Nat.le_refl _,fun _ _ => rfl,fun _ _ => Iff.rfl,fun _ _ hx => hx⟩

theorem Element.later (ha : Element h slots a) (hl : Later h slots h' slots') :
    Element h' slots' a := by
  obtain ⟨o,hao,ho,hs,hi⟩ := ha
  exact ⟨o,hao,ho.trans_le hl.size,fun hs' => hs ((hl.same o ho).mp hs'),hi⟩

theorem First.later (ha : First h slots a) (hl : Later h slots h' slots') : First h' slots' a :=
  ⟨ha.1.later hl,ha.2⟩

theorem Variable.later (ha : Variable h slots p a) (hl : Later h slots h' slots') :
    Variable h' slots' p a := by
  obtain ⟨o,hao,ho,hs⟩ := ha
  exact ⟨o,hao,ho.trans_le hl.size,(hl.same o ho).trans hs⟩

theorem Variable.filled_later (ha : Variable h slots p a) (hp : p) (hf : Filled h a)
    (hl : Later h slots h' slots') : Filled h' a := by
  obtain ⟨o,rfl,ho,hs⟩ := ha
  rintro _ ⟨⟩
  exact hl.filled o (hs.mpr hp) (hf o rfl)

theorem Variable.cell? (ha : Variable h slots p a) (hm : Memory h slots) : ∃ o, a.object = some o ∧
    o < h.size ∧
    (slots o ↔ p) ∧ h.cell? a = some (o,0) := by
  obtain ⟨o,rfl,ho,hs⟩ := ha
  have hlen := hm.length o ho
  exact ⟨o,rfl,ho,hs,Heap.cell?_eq_some_iff.mpr
    ⟨rfl,Int.le_refl _,Int.lt_of_lt_of_le Int.one_pos hlen,rfl⟩⟩

theorem Element.cell? (ha : Element h slots a) : ∃ o, a.object = some o ∧ o < h.size ∧ ¬ slots o ∧
    ((∃ i, h.cell? a = some (o,i)) ∨ h.cell? a = none ∧ (h.get o).length ≤ a.index) := by
  obtain ⟨o,hao,ho,hs,hi⟩ := ha
  refine ⟨o,hao,ho,hs,?_⟩
  by_cases hlt : a.index < (h.get o).length
  · exact .inl ⟨a.index.toNat,Heap.cell?_eq_some_iff.mpr ⟨hao,hi,hlt,rfl⟩⟩
  · refine .inr ⟨?_,Int.not_lt.mp hlt⟩
    cases hc : h.cell? a with
    | none => rfl
    | some x =>
      obtain ⟨o',i⟩ := x
      obtain ⟨hao',-,hlt',-⟩ := Heap.cell?_eq_some_iff.mp hc
      cases hao.symm.trans hao'
      exact absurd hlt' hlt

/-- A number may be written anywhere but into a slot, and the address of an array also into a slot.
-/
theorem Memory.write (hm : Memory h slots) (ho : o < h.size) (hv : IsWord v.int)
    (hs : slots o → First h slots v.address) :
    Memory (h.write o i v) slots ∧ Later h slots (h.write o i v) slots := by
  have hsize := Heap.size_write h ho i v
  have hlater : Later h slots (h.write o i v) slots := by
    refine ⟨Nat.le_of_eq hsize.symm,fun p _ => h.length_write o i v p,fun _ _ => Iff.rfl,
      fun p hp hf => ?_⟩
    rw [h.get_cells_write]
    split
    · rename_i hop
      obtain ⟨q,hq,-⟩ := (hs (hop.1 ▸ hp)).1
      rw [hq]
      exact Option.some_ne_none q
    · exact hf
  refine ⟨⟨fun p j => ?_,fun p hp => ?_,fun p hp => hsize ▸ hm.slots_lt p hp,
    fun p hp hf => ?_⟩,hlater⟩
  · rw [h.get_cells_write]
    split
    · exact hv
    · exact hm.word p j
  · rw [h.length_write]
    exact hm.length p (hsize ▸ hp)
  · rw [h.get_cells_write] at hf ⊢
    split
    · rename_i hop
      exact (hs (hop.1 ▸ hp)).later hlater
    · rename_i hop
      rw [if_neg hop] at hf
      exact (hm.held p hp hf).later hlater

theorem Memory.extend (hm : Memory h slots) (n : Int) (p : Prop) :
    Memory (h.extend (.zeros n)).1 (fun o => slots o ∨ o = h.size ∧ p) ∧
      Later h slots (h.extend (.zeros n)).1 (fun o => slots o ∨ o = h.size ∧ p) ∧
      Variable (h.extend (.zeros n)).1 (fun o => slots o ∨ o = h.size ∧ p) p
        (h.extend (.zeros n)).2 := by
  have hsize : (h.extend (.zeros n)).1.size = h.size + 1 := Table.size_push _ _
  have hget : ∀ o, (h.extend (.zeros n)).1.get o = if o = h.size then .zeros n else h.get o :=
    fun o => Table.get_push _ _ _
  have hold : ∀ o < h.size, (h.extend (.zeros n)).1.get o = h.get o := fun o ho => by
    rw [hget,if_neg (Nat.ne_of_lt ho)]
  have hlater : Later h slots (h.extend (.zeros n)).1 (fun o => slots o ∨ o = h.size ∧ p) := by
    refine ⟨by rw [hsize]; exact Nat.le_succ _,fun o ho => by rw [hold o ho],fun o ho => ?_,
      fun o hs hf => ?_⟩
    · grind
    · rwa [hold o (hm.slots_lt o hs)]
  refine ⟨⟨fun o j => ?_,fun o ho => ?_,fun o hs => ?_,fun o hs hf => ?_⟩,hlater,h.size,rfl,
    by rw [hsize]; exact Nat.lt_succ_self _,?_⟩
  · rw [hget]
    split
    · rw [show (Object.zeros n).cells.get j = .zero from Table.get_empty j]
      exact isWord_zero
    · exact hm.word o j
  · rw [hget]
    split
    · exact Int.le_max_right _ _
    · rename_i hne
      exact hm.length o (Nat.lt_of_le_of_ne (Nat.le_of_lt_succ (Nat.lt_of_lt_of_eq ho hsize)) hne)
  · rw [hsize]
    rcases hs with hs | ⟨rfl,-⟩
    · exact Nat.lt_succ_of_lt (hm.slots_lt o hs)
    · exact Nat.lt_succ_self _
  · rcases hs with hs | ⟨rfl,-⟩
    · rw [hold o (hm.slots_lt o hs)] at hf ⊢
      exact (hm.held o hs hf).later hlater
    · rw [hget,if_pos rfl] at hf
      exact absurd rfl hf
  · exact ⟨fun hs => hs.elim (fun hs => absurd (hm.slots_lt _ hs) (Nat.lt_irrefl _)) And.right,
      fun hp => .inr ⟨rfl,hp⟩⟩

end
end Safety
end CMinusF
