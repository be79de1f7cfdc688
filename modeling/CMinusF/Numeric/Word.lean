/-! Whole numbers kept in a machine word: the signed number with the same low bits. -/
namespace CMinusF.Numeric

/-- A number that fits in 32 bits. -/
def IsWord (n : Int) : Prop := -2147483648 ≤ n ∧ n ≤ 2147483647

instance (n : Int) : Decidable (IsWord n) := inferInstanceAs (Decidable (_ ∧ _))

theorem isWord_zero : IsWord 0 := by decide

/-- A number in range is taken as it is. -/
def wrap32 (n : Int) : Int :=
  if -2147483648 ≤ n ∧ n ≤ 2147483647 then n else n.bmod 4294967296

theorem wrap32_eq_bmod (n : Int) : wrap32 n = n.bmod 4294967296 := by
  simp only [wrap32]
  split
  · simp only [Int.bmod]; omega
  · rfl

def wrap64 (n : Int) : Int := n.bmod 18446744073709551616

theorem isWord_wrap32 (n : Int) : IsWord (wrap32 n) := by
  simp only [IsWord,wrap32_eq_bmod,Int.bmod]
  omega

theorem IsWord.wrap32 {n : Int} (h : IsWord n) : wrap32 n = n := if_pos h

theorem wrap64_of_range {n : Int} (h₁ : -9223372036854775808 ≤ n) (h₂ : n ≤ 9223372036854775807) :
    wrap64 n = n := by
  simp only [wrap64,Int.bmod]; omega

end CMinusF.Numeric
