/-! Rows by number. Every number has a row: those never written hold the default. -/
namespace CMinusF

structure Table (α : Type) where
  rows : Array α
deriving Repr

namespace Table
variable {α : Type}

def empty : Table α := ⟨#[]⟩

instance : Inhabited (Table α) := ⟨empty⟩

/-- The first number that has never been written. -/
def size (t : Table α) : Nat := t.rows.size

def push (t : Table α) (a : α) : Table α := ⟨t.rows.push a⟩

@[simp] theorem size_push (t : Table α) (a : α) : (t.push a).size = t.size + 1 := by
  simp [push,size]

variable [Inhabited α]

def get (t : Table α) (i : Nat) : α := t.rows.getD i default

def reserve (t : Table α) (n : Nat) : Table α :=
  if n ≤ t.size then t else ⟨t.rows ++ Array.replicate (n - t.size) default⟩

def modify (t : Table α) (i : Nat) (f : α → α) : Table α := ⟨(t.reserve (i + 1)).rows.modify i f⟩

def set (t : Table α) (i : Nat) (a : α) : Table α := t.modify i fun _ => a

@[simp] theorem get_empty (i : Nat) : (empty : Table α).get i = default := by simp [empty,get]

theorem get_of_size_le (t : Table α) {i : Nat} (h : t.size ≤ i) : t.get i = default := by
  rw [get,Array.getD_eq_getD_getElem?,Array.getElem?_eq_none h,Option.getD_none]

theorem get_push (t : Table α) (a : α) (i : Nat) :
    (t.push a).get i = if i = t.size then a else t.get i := by
  simp only [get,push,size,Array.getD_eq_getD_getElem?,Array.getElem?_push]
  split <;> simp_all

@[simp] theorem get_reserve (t : Table α) (n i : Nat) : (t.reserve n).get i = t.get i := by
  unfold reserve
  split
  · rfl
  · simp only [get,size,Array.getD_eq_getD_getElem?]
    by_cases h : i < t.rows.size
    · rw [Array.getElem?_append_left h]
    · rw [Array.getElem?_append_right (by omega),Array.getElem?_replicate,
        Array.getElem?_eq_none (by omega)]
      split <;> rfl

theorem le_size_reserve (t : Table α) (n : Nat) : n ≤ (t.reserve n).size := by
  unfold reserve
  split
  · assumption
  · simp only [size] at *; simp; omega

theorem size_modify (t : Table α) (i : Nat) (f : α → α) :
    (t.modify i f).size = max t.size (i + 1) := by
  have hs : ∀ u : Table α, (⟨u.rows.modify i f⟩ : Table α).size = u.size := fun u => by simp [size]
  rw [modify,hs,reserve]
  split
  · omega
  · simp only [size] at *
    simp
    omega

theorem get_modify (t : Table α) (i : Nat) (f : α → α) (j : Nat) :
    (t.modify i f).get j = if i = j then f (t.get i) else t.get j := by
  have hs := le_size_reserve t (i + 1)
  have hg := get_reserve t (i + 1)
  simp only [modify]
  rw [← hg i,← hg j]
  generalize t.reserve (i + 1) = u at *
  simp only [get,size,Array.getD_eq_getD_getElem?,Array.getElem?_modify] at *
  by_cases h : i = j
  · subst h
    simp [Array.getElem?_eq_getElem (show i < u.rows.size by omega)]
  · simp [h]

@[simp] theorem get_modify_same (t : Table α) (i : Nat) (f : α → α) :
    (t.modify i f).get i = f (t.get i) := by simp [get_modify]

theorem get_set (t : Table α) (i : Nat) (a : α) (j : Nat) :
    (t.set i a).get j = if i = j then a else t.get j := by simp [set,get_modify]

end Table
end CMinusF
