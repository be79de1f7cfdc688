import CMinusF.Proofs.Syntax.Statements
import Mathlib.Data.List.TakeDrop
import Mathlib.Data.List.TakeWhile

/-! Programs are read from exactly the tokens that the grammar derives. The grammar leaves open
which `if` an `else` is bound to; whatever it derives it also derives with each `else` bound to the
nearest. -/
namespace CMinusF
variable {ts : List Token} {file : String} {p : Program}

namespace Grammar
open Reader

/-- Binds an `else` to the nearest `if` of an open statement. -/
def Statement.attach : Statement → Leaf .elseKey → Statement → Statement
  | .ifThen k l c r yes, e, no =>
    if yes.isOpen then .ifThen k l c r (yes.attach e no) else .ifElse k l c r yes e no
  | .ifElse k l c r yes e' no', e, no => .ifElse k l c r yes e' (no'.attach e no)
  | .loop k l c r body, e, no => .loop k l c r (body.attach e no)
  | s, _, _ => s

section
variable (e : Leaf .elseKey) {no : Statement}

theorem Statement.tokens_attach : (s : Statement) → s.isOpen = true →
    (s.attach e no).tokens = s.tokens ++ e.1 :: no.tokens
  | .ifThen k l c r yes, _ => by
    rw [attach]
    split
    · rename_i ho
      simp [tokens,yes.tokens_attach ho]
    · simp [tokens]
  | .ifElse k l c r yes e' no', ho => by simp [attach,tokens,no'.tokens_attach ho]
  | .loop k l c r body, ho => by simp [attach,tokens,body.tokens_attach ho]

theorem Statement.nearest_attach (hno : no.Nearest) : (s : Statement) → s.isOpen = true →
    s.Nearest → (s.attach e no).Nearest
  | .ifThen k l c r yes, _, hs => by
    rw [attach]
    split
    · rename_i ho
      exact yes.nearest_attach hno ho hs
    · rename_i ho
      exact ⟨eq_false_of_ne_true ho,hs,hno⟩
  | .ifElse k l c r yes e' no', ho, hs => ⟨hs.1,hs.2.1,no'.nearest_attach hno ho hs.2.2⟩
  | .loop k l c r body, ho, hs => body.nearest_attach hno ho hs

end

mutual
/-- The tokens of a statement have a tree in which each `else` is bound to the nearest `if`. -/
theorem Statement.exists_nearest : (s : Statement) → ∃ s' : Statement, s'.Nearest ∧
    s'.tokens = s.tokens
  | .block b => by
    obtain ⟨b',hb,ht⟩ := Block.exists_nearest b
    exact ⟨.block b',hb,ht⟩
  | .empty f => ⟨.empty f,trivial,rfl⟩
  | .expr e f => ⟨.expr e f,trivial,rfl⟩
  | .ret k f => ⟨.ret k f,trivial,rfl⟩
  | .retValue k e f => ⟨.retValue k e f,trivial,rfl⟩
  | .ifThen k l c r yes => by
    obtain ⟨yes',hyes,ht⟩ := Statement.exists_nearest yes
    exact ⟨.ifThen k l c r yes',hyes,by rw [Statement.tokens,ht,Statement.tokens]⟩
  | .ifElse k l c r yes e no => by
    obtain ⟨yes',hyes,ht⟩ := Statement.exists_nearest yes
    obtain ⟨no',hno,ht'⟩ := Statement.exists_nearest no
    by_cases ho : yes'.isOpen = true
    · refine ⟨.ifThen k l c r (yes'.attach e no'),Statement.nearest_attach e hno yes' ho hyes,?_⟩
      rw [Statement.tokens,Statement.tokens_attach e yes' ho,ht,ht',Statement.tokens]
    · exact ⟨.ifElse k l c r yes' e no',⟨eq_false_of_ne_true ho,hyes,hno⟩,
        by rw [Statement.tokens,ht,ht',Statement.tokens]⟩
  | .loop k l c r body => by
    obtain ⟨body',hbody,ht⟩ := Statement.exists_nearest body
    exact ⟨.loop k l c r body',hbody,by rw [Statement.tokens,ht,Statement.tokens]⟩

theorem Block.exists_nearest : (b : Block) → ∃ b' : Block, b'.Nearest ∧ b'.tokens = b.tokens
  | .mk l ds ss r => by
    obtain ⟨ss',hss,ht⟩ := Statements.exists_nearest ss
    exact ⟨.mk l ds ss' r,hss,by rw [Block.tokens,ht,Block.tokens]⟩

theorem Statements.exists_nearest : (ss : Statements) → ∃ ss' : Statements, ss'.Nearest ∧
    ss'.tokens = ss.tokens
  | .nil => ⟨.nil,trivial,rfl⟩
  | .cons s ss => by
    obtain ⟨s',hs,ht⟩ := Statement.exists_nearest s
    obtain ⟨ss',hss,ht'⟩ := Statements.exists_nearest ss
    exact ⟨.cons s' ss',⟨hs,hss⟩,by rw [Statements.tokens,ht,ht',Statements.tokens]⟩
end

theorem Declaration.exists_nearest (d : Declaration) :
    ∃ d' : Declaration, d'.Nearest ∧ d'.tokens = d.tokens := by
  cases d with
  | «variable» v => exact ⟨.variable v,trivial,rfl⟩
  | function s x l ps r b =>
    obtain ⟨b',hb,ht⟩ := b.exists_nearest
    exact ⟨.function s x l ps r b',hb,by rw [tokens,ht,tokens]⟩

theorem Derivation.exists_nearest (d : Derivation) :
    ∃ d' : Derivation, d'.Nearest ∧ d'.tokens = d.tokens := by
  obtain ⟨ds⟩ := d
  induction ds with
  | nil => exact ⟨⟨[]⟩,fun _ h => (List.not_mem_nil h).elim,rfl⟩
  | cons x ds ih =>
    obtain ⟨⟨ds'⟩,hds,ht⟩ := ih
    obtain ⟨x',hx,ht'⟩ := x.exists_nearest
    refine ⟨⟨x' :: ds'⟩,List.forall_mem_cons.mpr ⟨hx,hds⟩,?_⟩
    simp only [tokens,List.flatMap_cons] at ht ⊢
    rw [ht,ht']

/-- The tokens to be derived: those before the first `eof`. -/
def bodyOf (ts : List Token) : List Token := ts.takeWhile fun t => t.kind ≠ .eof

theorem bodyOf_ne_eof : ∀ t ∈ bodyOf ts, t.kind ≠ .eof := fun _ ht =>
  of_decide_eq_true (List.mem_takeWhile_imp (p := fun t : Token => decide (t.kind ≠ .eof)) ht)

theorem ofTokens_eq_ok :
    Program.ofTokens file ts = .ok p ↔ ∃ us, Reader.program (bodyOf ts) = .ok (p,us) := by
  rw [Program.ofTokens,List.span_eq_takeWhile_dropWhile]
  dsimp only
  rw [← bodyOf]
  grind

/-- What is read is what the derivation means in which each `else` is bound to the nearest `if`. -/
theorem ofTokens_iff :
    Program.ofTokens file ts = .ok p ↔ ∃ d :
    Derivation, (d.Nearest ∧ d.tokens = bodyOf ts) ∧ d.meaning = p := by
  rw [ofTokens_eq_ok]
  constructor
  · rintro ⟨us,h⟩
    obtain ⟨d,hd,ht,hm⟩ := derives_program bodyOf_ne_eof h
    exact ⟨d,⟨hd,ht⟩,hm⟩
  · rintro ⟨d,⟨hd,ht⟩,rfl⟩
    exact ⟨[],ht ▸ program_tokens d hd⟩

end Grammar

open Grammar

/-- A program is read if and only if the grammar derives the tokens before the first `eof`; exactly
one of the derivations binds each `else` to the nearest `if`, and the program read is the one that
it means. -/
theorem ofTokens_derivation (file : String) (ts : List Token) :
    ((∃ p, Program.ofTokens file ts = .ok p) ↔ ∃ d : Derivation, d.tokens = bodyOf ts) ∧
    ∀ p, Program.ofTokens file ts = .ok p ↔ ∃ d : Derivation,
      (∀ d' : Derivation, d'.Nearest ∧ d'.tokens = bodyOf ts ↔ d' = d) ∧ d.meaning = p := by
  constructor
  · constructor
    · rintro ⟨p,h⟩
      obtain ⟨d,⟨-,ht⟩,-⟩ := ofTokens_iff.mp h
      exact ⟨d,ht⟩
    · rintro ⟨d,ht⟩
      obtain ⟨d',hd,ht'⟩ := d.exists_nearest
      exact ⟨d'.meaning,ofTokens_iff.mpr ⟨d',⟨hd,ht'.trans ht⟩,rfl⟩⟩
  · intro p
    rw [ofTokens_iff]
    constructor
    · rintro ⟨d,⟨hd,ht⟩,hm⟩
      refine ⟨d,fun d' => ⟨fun h => ?_,?_⟩,hm⟩
      · exact Derivation.unique (h.2.trans ht.symm) h.1 hd
      · rintro rfl
        exact ⟨hd,ht⟩
    · rintro ⟨d,hd,hm⟩
      exact ⟨d,(hd d).mpr rfl,hm⟩

/-- A declaration of an array whose length is above 0 is not read if the length is 2^63. -/
theorem huge_length_rejected : decimalValue? "9223372036854775808".toList =
    some 9223372036854775808 ∧
    Program.ofTokens "" [⟨.intKey,"int",⟨1,1⟩⟩,⟨.identifier,"a",⟨1,5⟩⟩,⟨.leftBracket,"[",⟨1,6⟩⟩,
      ⟨.integer,"9223372036854775808",⟨1,7⟩⟩,
      ⟨.rightBracket,"]",⟨1,26⟩⟩,⟨.semicolon,";",⟨1,27⟩⟩,⟨.eof,"",⟨1,28⟩⟩] =
      .error ⟨"",⟨1,26⟩,"]",.badLength "9223372036854775808"⟩ :=
  ⟨by decide +kernel,rfl⟩

end CMinusF
