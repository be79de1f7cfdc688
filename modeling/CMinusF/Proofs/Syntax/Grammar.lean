import CMinusF.Syntax.Parse

/-! The grammar as trees, a constructor for each production. A tree spans tokens and has a meaning;
an `else` may be bound to any `if` before it, and `Nearest` says that it is bound to the nearest. -/
namespace CMinusF.Grammar

abbrev Leaf (k : Token.Kind) := {t : Token // t.kind = k}

/-- A number in decimal digits, from `least` to `most`. -/
structure Numeral (least most : Nat) where
  token : Leaf .integer
  value : Nat
  written : decimalValue? token.1.lexeme.toList = some value
  least_le : least ≤ value
  le_most : value ≤ most

/-- A number with a point. -/
structure Fraction where
  token : Leaf .decimal
  value : Binary32
  written : Binary32.ofLiteral? token.1.lexeme.toList = some value

def symbolOf : BinaryOp → Token.Kind
  | .add => .plus
  | .sub => .minus
  | .mul => .star
  | .div => .slash
  | .eq => .equal
  | .ne => .notEqual
  | .lt => .less
  | .le => .lessEqual
  | .gt => .greater
  | .ge => .greaterEqual

/-- The operators that are grouped from the left. -/
inductive Level where
  | product | sum

def Level.has : Level → BinaryOp → Bool
  | .product, op => op = .mul ∨ op = .div
  | .sum, op => op = .add ∨ op = .sub

structure Operator (p : BinaryOp → Bool) where
  op : BinaryOp
  is : p op = true
  token : Leaf (symbolOf op)

/-! Expressions. -/

/-- The parts of an expression; `more` is what follows the first operand of a level. -/
inductive Part where
  | expression | target | var | simple | level (g : Level) | more
      (g : Level) | factor | arguments | moreArguments

abbrev Level.operand : Level → Part
  | .product => .factor
  | .sum => .level .product

inductive Tree : Part → Type where
  | assign (t : Tree .target) (q : Leaf .assign) (e : Tree .expression) : Tree .expression
  | plain (s : Tree .simple) : Tree .expression
  | targetVar (v : Tree .var) : Tree .target
  | targetParen (l : Leaf .leftParen) (t : Tree .target) (r : Leaf .rightParen) : Tree .target
  | name (x : Leaf .identifier) : Tree .var
  | element (x : Leaf .identifier) (l : Leaf .leftBracket) (e : Tree .expression)
      (r : Leaf .rightBracket) : Tree .var
  | single (s : Tree (.level .sum)) : Tree .simple
  | relation (s : Tree (.level .sum)) (o : Operator BinaryOp.isComparison)
      (s' : Tree (.level .sum)) : Tree .simple
  | chain {g : Level} (d : Tree g.operand) (ds : Tree (.more g)) : Tree (.level g)
  | stop {g : Level} : Tree (.more g)
  | more {g : Level} (o : Operator g.has) (d : Tree g.operand) (ds : Tree (.more g)) :
      Tree (.more g)
  | paren (l : Leaf .leftParen) (e : Tree .expression) (r : Leaf .rightParen) : Tree .factor
  | factorVar (v : Tree .var) : Tree .factor
  | call (x : Leaf .identifier) (l : Leaf .leftParen) (as : Tree .arguments)
      (r : Leaf .rightParen) : Tree .factor
  | integer (n : Numeral 0 2147483647) : Tree .factor
  | fraction (n : Fraction) : Tree .factor
  | noArguments : Tree .arguments
  | firstArgument (e : Tree .expression) (es : Tree .moreArguments) : Tree .arguments
  | lastArgument : Tree .moreArguments
  | nextArgument (c : Leaf .comma) (e : Tree .expression) (es : Tree .moreArguments) :
      Tree .moreArguments

inductive Place where
  | variable (pos : Position) (name : String)
  | element (pos : Position) (name : String) (index : Expr)

def Place.read : Place → Expr
  | .variable pos name => .variable pos name
  | .element pos name index => .element pos name index

def Place.assign : Place → Expr → Expr
  | .variable pos name => .assign pos name
  | .element pos name index => .assignElement pos name index

/-- What a part means: mostly an expression; for what follows an operand, how the expression goes on
from it. -/
abbrev Part.Meaning : Part → Type
  | .target | .var => Place
  | .more _ => Expr → Expr
  | .arguments | .moreArguments => List Expr
  | .expression | .simple | .level _ | .factor => Expr

def Level.expr : {g : Level} → g.operand.Meaning → Expr
  | .product, e => e
  | .sum, e => e

namespace Tree

@[simp] def tokens : {p : Part} → Tree p → List Token
  | _, .assign t q e => t.tokens ++ q.1 :: e.tokens
  | _, .plain s => s.tokens
  | _, .targetVar v => v.tokens
  | _, .targetParen l t r => l.1 :: (t.tokens ++ [r.1])
  | _, .name x => [x.1]
  | _, .element x l e r => x.1 :: l.1 :: (e.tokens ++ [r.1])
  | _, .single s => s.tokens
  | _, .relation s o s' => s.tokens ++ o.token.1 :: s'.tokens
  | _, .chain d ds => d.tokens ++ ds.tokens
  | _, .stop => []
  | _, .more o d ds => o.token.1 :: (d.tokens ++ ds.tokens)
  | _, .paren l e r => l.1 :: (e.tokens ++ [r.1])
  | _, .factorVar v => v.tokens
  | _, .call x l as r => x.1 :: l.1 :: (as.tokens ++ [r.1])
  | _, .integer n => [n.token.1]
  | _, .fraction n => [n.token.1]
  | _, .noArguments => []
  | _, .firstArgument e es => e.tokens ++ es.tokens
  | _, .lastArgument => []
  | _, .nextArgument c e es => c.1 :: (e.tokens ++ es.tokens)

@[simp] def meaning : {p : Part} → Tree p → p.Meaning
  | _, .assign t _ e => t.meaning.assign e.meaning
  | _, .plain s => s.meaning
  | _, .targetVar v => v.meaning
  | _, .targetParen _ t _ => t.meaning
  | _, .name x => .variable x.1.position x.1.lexeme
  | _, .element x _ e _ => .element x.1.position x.1.lexeme e.meaning
  | _, .single s => s.meaning
  | _, .relation s o s' => .binary o.op s.meaning s'.meaning
  | _, .chain d ds => ds.meaning (Level.expr d.meaning)
  | _, .stop => id
  | _, .more o d ds => fun left => ds.meaning (.binary o.op left (Level.expr d.meaning))
  | _, .paren _ e _ => e.meaning
  | _, .factorVar v => v.meaning.read
  | _, .call x _ as _ => .call x.1.position x.1.lexeme as.meaning
  | _, .integer n => .integer n.value
  | _, .fraction n => .decimal n.value
  | _, .noArguments => []
  | _, .firstArgument e es => e.meaning :: es.meaning
  | _, .lastArgument => []
  | _, .nextArgument _ e es => e.meaning :: es.meaning

end Tree

abbrev Expression := Tree .expression

/-! Declarations and statements. -/

inductive ScalarType where
  | int (t : Leaf .intKey)
  | float (t : Leaf .floatKey)

def ScalarType.token : ScalarType → Token
  | .int t => t.1
  | .float t => t.1

def ScalarType.scalar : ScalarType → Scalar
  | .int _ => .int
  | .float _ => .float

structure Length where
  left : Leaf .leftBracket
  number : Numeral 1 9223372036854775807
  right : Leaf .rightBracket

def Length.tokens (n : Length) : List Token := [n.left.1,n.number.token.1,n.right.1]

structure Variable where
  type : ScalarType
  name : Leaf .identifier
  length : Option Length
  finish : Leaf .semicolon

def Variable.tokens (v : Variable) : List Token :=
  v.type.token :: v.name.1 :: (v.length.elim [] Length.tokens ++ [v.finish.1])

def Variable.meaning (v : Variable) : VariableDecl :=
  ⟨v.type.token.position,v.name.1.lexeme,v.type.scalar,v.length.map (·.number.value)⟩

mutual
inductive Statement where
  | block (b : Block)
  | empty (s : Leaf .semicolon)
  | expr (e : Expression) (s : Leaf .semicolon)
  | ret (k : Leaf .returnKey) (s : Leaf .semicolon)
  | retValue (k : Leaf .returnKey) (e : Expression) (s : Leaf .semicolon)
  | ifThen (k : Leaf .ifKey) (l : Leaf .leftParen) (c : Expression) (r : Leaf .rightParen)
      (yes : Statement)
  | ifElse (k : Leaf .ifKey) (l : Leaf .leftParen) (c : Expression) (r : Leaf .rightParen)
      (yes : Statement)
    (e : Leaf .elseKey) (no : Statement)
  | loop (k : Leaf .whileKey) (l : Leaf .leftParen) (c : Expression) (r : Leaf .rightParen)
      (body : Statement)
inductive Block where
  | mk (left : Leaf .leftBrace) (decls : List Variable) (body : Statements)
      (right : Leaf .rightBrace)
inductive Statements where
  | nil
  | cons (s : Statement) (ss : Statements)
end

mutual
def Statement.tokens : Statement → List Token
  | .block b => b.tokens
  | .empty s => [s.1]
  | .expr e s => e.tokens ++ [s.1]
  | .ret k s => [k.1,s.1]
  | .retValue k e s => k.1 :: (e.tokens ++ [s.1])
  | .ifThen k l c r yes => k.1 :: l.1 :: (c.tokens ++ r.1 :: yes.tokens)
  | .ifElse k l c r yes e no => k.1 :: l.1 :: (c.tokens ++ r.1 :: (yes.tokens ++ e.1 :: no.tokens))
  | .loop k l c r body => k.1 :: l.1 :: (c.tokens ++ r.1 :: body.tokens)
def Block.tokens : Block → List Token
  | .mk left decls body right =>
    left.1 :: (decls.flatMap Variable.tokens ++ (body.tokens ++ [right.1]))
def Statements.tokens : Statements → List Token
  | .nil => []
  | .cons s ss => s.tokens ++ ss.tokens
end

mutual
def Statement.meaning : Statement → Stmt
  | .block b => .block b.meaning.1 b.meaning.2
  | .empty _ => .empty
  | .expr e _ => .expr e.meaning
  | .ret k _ => .ret k.1.position none
  | .retValue k e _ => .ret k.1.position (some e.meaning)
  | .ifThen _ _ c _ yes => .ifThen c.meaning yes.meaning
  | .ifElse _ _ c _ yes _ no => .ifElse c.meaning yes.meaning no.meaning
  | .loop _ _ c _ body => .loop c.meaning body.meaning
def Block.meaning : Block → List VariableDecl × List Stmt
  | .mk _ decls body _ => (decls.map Variable.meaning,body.meaning)
def Statements.meaning : Statements → List Stmt
  | .nil => []
  | .cons s ss => s.meaning :: ss.meaning
end

/-- An `if` at the end of the statement has no `else`. -/
def Statement.isOpen : Statement → Bool
  | .ifThen .. => true
  | .ifElse _ _ _ _ _ _ no => no.isOpen
  | .loop _ _ _ _ body => body.isOpen
  | _ => false

mutual
/-- Each `else` is bound to the nearest `if` before it that has none. -/
def Statement.Nearest : Statement → Prop
  | .block b => b.Nearest
  | .ifThen _ _ _ _ yes => yes.Nearest
  | .ifElse _ _ _ _ yes _ no => yes.isOpen = false ∧ yes.Nearest ∧ no.Nearest
  | .loop _ _ _ _ body => body.Nearest
  | .empty _ | .expr _ _ | .ret _ _ | .retValue _ _ _ => True
def Block.Nearest : Block → Prop
  | .mk _ _ body _ => body.Nearest
def Statements.Nearest : Statements → Prop
  | .nil => True
  | .cons s ss => s.Nearest ∧ ss.Nearest
end

structure Param where
  type : ScalarType
  name : Leaf .identifier
  brackets : Option (Leaf .leftBracket × Leaf .rightBracket)

def Param.tokens (p : Param) : List Token :=
  p.type.token :: p.name.1 :: p.brackets.elim [] fun b => [b.1.1,b.2.1]

def Param.meaning (p : Param) : Parameter :=
  ⟨p.type.token.position,p.name.1.lexeme,p.type.scalar,p.brackets.isSome⟩

inductive Params where
  | none
  | void (t : Leaf .voidKey)
  | some (p : Param) (ps : List (Leaf .comma × Param))

def Params.tokens : Params → List Token
  | .none => []
  | .void t => [t.1]
  | .some p ps => p.tokens ++ ps.flatMap fun x => x.1.1 :: x.2.tokens

def Params.meaning : Params → List Parameter
  | .none | .void _ => []
  | .some p ps => p.meaning :: ps.map fun x => x.2.meaning

inductive ResultType where
  | void (t : Leaf .voidKey)
  | scalar (s : ScalarType)

def ResultType.token : ResultType → Token
  | .void t => t.1
  | .scalar s => s.token

def ResultType.result : ResultType → Option Scalar
  | .void _ => none
  | .scalar s => s.scalar

inductive Declaration where
  | variable (v : Variable)
  | function (type : ResultType) (name : Leaf .identifier) (l : Leaf .leftParen) (ps : Params)
      (r : Leaf .rightParen) (body : Block)

def Declaration.tokens : Declaration → List Token
  | .variable v => v.tokens
  | .function type name l ps r body =>
    type.token :: name.1 :: l.1 :: (ps.tokens ++ r.1 :: body.tokens)

def Declaration.meaning : Declaration → Decl
  | .variable v => .variable v.meaning
  | .function type name _ ps _ body =>
    .function ⟨type.token.position,name.1.lexeme,type.result,ps.meaning,body.meaning.1,
      body.meaning.2⟩

def Declaration.Nearest : Declaration → Prop
  | .variable _ => True
  | .function _ _ _ _ _ body => body.Nearest

structure Derivation where
  decls : List Declaration

def Derivation.tokens (d : Derivation) : List Token := d.decls.flatMap Declaration.tokens

def Derivation.meaning (d : Derivation) : Program := ⟨d.decls.map Declaration.meaning⟩

def Derivation.Nearest (d : Derivation) : Prop := ∀ x ∈ d.decls, x.Nearest

end CMinusF.Grammar
