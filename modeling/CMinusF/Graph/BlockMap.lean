import CMinusF.Graph.Basic

/-! A value for every block, the default unless written. -/
namespace CMinusF

structure BlockMap (α : Type) where
  rows : Table (Table α)

namespace BlockMap
variable {α : Type}

def empty : BlockMap α := ⟨.empty⟩

instance : Inhabited (BlockMap α) := ⟨empty⟩

variable [Inhabited α]

def get (t : BlockMap α) (b : BlockId) : α := (t.rows.get b.func).get b.number

def modify (t : BlockMap α) (b : BlockId) (f : α → α) : BlockMap α :=
  ⟨t.rows.modify b.func fun r => r.modify b.number f⟩

def set (t : BlockMap α) (b : BlockId) (a : α) : BlockMap α := t.modify b fun _ => a

@[simp] theorem get_empty (b : BlockId) : (empty : BlockMap α).get b = default := by
  simp only [empty,get,Table.get_empty]
  exact Table.get_empty _

theorem get_modify (t : BlockMap α) (b : BlockId) (f : α → α) (c : BlockId) :
    (t.modify b f).get c = if b = c then f (t.get b) else t.get c := by
  obtain ⟨g,n⟩ := b
  obtain ⟨h,k⟩ := c
  by_cases hg : g = h
  · subst hg
    by_cases hn : n = k <;> simp [get,modify,Table.get_modify,hn]
  · simp [get,modify,Table.get_modify,hg]

theorem get_set (t : BlockMap α) (b : BlockId) (a : α) (c : BlockId) :
    (t.set b a).get c = if b = c then a else t.get c := by simp [set,get_modify]

end BlockMap
end CMinusF
