import CMinusF.Proofs.Lowering.Verified
import CMinusF.Proofs.Syntax.Parsing

/-! The integers of a source text fit in 32 bits. -/
namespace CMinusF
namespace Reader

/-- The integers that can be written in a source text. -/
def IsLiteral (n : Int) : Prop := 0 ≤ n ∧ n ≤ 2147483647

end Reader

namespace Grammar
open Reader

/-- The integers in what a part means are literals. -/
def Part.Literal : {p : Part} → p.Meaning → Prop
  | .expression, e | .simple, e | .level _, e | .factor, e => e.Within IsLiteral
  | .target, x | .var, x => x.read.Within IsLiteral
  | .more _, f => ∀ e : Expr, e.Within IsLiteral → (f e).Within IsLiteral
  | .arguments, es | .moreArguments, es => Expr.allWithin IsLiteral es

theorem Place.within_assign {x : Place} {e : Expr} (hx : x.read.Within IsLiteral)
    (he : e.Within IsLiteral) : (x.assign e).Within IsLiteral := by
  cases x with
  | «variable» => exact he
  | element => exact ⟨hx,he⟩

theorem Level.within {g : Level} {x : g.operand.Meaning} (h : Part.Literal x) :
    (Level.expr x).Within IsLiteral := by
  cases g <;> exact h

theorem Tree.literal {p : Part} (d : Tree p) : Part.Literal d.meaning := by
  induction d with
  | assign t q e iht ihe => exact Place.within_assign iht ihe
  | plain s ih | single s ih | targetVar s ih | targetParen _ s _ ih | paren _ s _ ih
  | element _ _ s _ ih | call _ _ s _ ih => exact ih
  | factorVar v ih => exact ih
  | relation s o s' ih ih' => exact ⟨ih,ih'⟩
  | chain d ds ih ihs => exact ihs _ (Level.within ih)
  | stop => exact fun _ h => h
  | more o d ds ih ihs => exact fun _ h => ihs _ ⟨h,Level.within ih⟩
  | integer n => exact ⟨Int.natCast_nonneg _,Int.ofNat_le.mpr n.le_most⟩
  | firstArgument e es ih ihs | nextArgument _ e es ih ihs => exact ⟨ih,ihs⟩
  | name | fraction | noArguments | lastArgument => trivial

mutual
theorem Statement.literal : (s : Statement) → s.meaning.Obeys (Expr.Within IsLiteral) fun _ => True
  | .block (.mk _ _ body _) => body.literal
  | .empty _ | .ret _ _ => trivial
  | .expr e _ => e.literal
  | .retValue _ e _ => ⟨e.literal,trivial⟩
  | .ifThen _ _ c _ yes => ⟨c.literal,yes.literal⟩
  | .ifElse _ _ c _ yes _ no => ⟨c.literal,yes.literal,no.literal⟩
  | .loop _ _ c _ body => ⟨c.literal,body.literal⟩
theorem Statements.literal : (ss : Statements) →
    Stmt.allObey (Expr.Within IsLiteral) (fun _ => True) ss.meaning
  | .nil => trivial
  | .cons s ss => ⟨s.literal,fun _ => ss.literal⟩
end

end Grammar

theorem Program.literals_of_parse {file source : String} {p : Program}
    (h : Program.parse file source = .ok p) :
    ∀ f, .function f ∈ p.decls →
      Stmt.allObey (Expr.Within Reader.IsLiteral) (fun _ => True) f.body := by
  obtain ⟨d,-,rfl⟩ := Grammar.ofTokens_iff.mp h
  intro f hf
  obtain ⟨x,-,hx⟩ := List.mem_map.mp hf
  cases x with
  | «variable» => cases hx
  | function s x l ps r b =>
    cases hx
    obtain ⟨l,ds,ss,r⟩ := b
    exact ss.literal

end CMinusF
