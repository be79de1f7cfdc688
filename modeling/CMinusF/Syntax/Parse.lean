import CMinusF.Syntax
import CMinusF.Binary32.Decimal
import CMinusF.Token.Scan
import CMinusF.Text.Quoted

/-! Reading a program from its tokens by descent, one function for each level of the grammar.
A number that bounds the nesting is passed down; it starts at the number of tokens left and each
level below takes at least one of them, so it runs out only where the tokens do. -/
namespace CMinusF

inductive SyntaxCause where
  | expected (kind : Token.Kind)
  | expectedType
  | unexpected
  | voidVariable (name : String)
  | voidParameters
  | voidParameter (name : String)
  | badLength (lexeme : String)
  | badInteger (lexeme : String)
  | badDecimal (lexeme : String)
  | notAssignable
deriving DecidableEq, Repr

/-- `found` is the lexeme of the token at which reading stopped. -/
def SyntaxCause.message (found : String) : SyntaxCause → String
  | .expected k => s!"expected {k.name}, got {Text.quoted found}"
  | .expectedType => s!"expected type, got {Text.quoted found}"
  | .unexpected => s!"unexpected token {Text.quoted found}"
  | .voidVariable x => s!"variable {x} declared void"
  | .voidParameters => "parameter declared void"
  | .voidParameter x => s!"parameter {x} declared void"
  | .badLength l => s!"bad array length {l}"
  | .badInteger l => s!"integer literal {l} out of range"
  | .badDecimal l => s!"bad float literal {l}"
  | .notAssignable => "cannot assign to this expression"

structure Stuck where
  cause : SyntaxCause
  rest : List Token
deriving DecidableEq, Repr

abbrev Reader (α : Type) := StateT (List Token) (Except Stuck) α

namespace Reader

def fail {α : Type} (cause : SyntaxCause) : Reader α := fun ts => .error ⟨cause,ts⟩

/-- The kind of the next token; past the last one, `eof`. -/
def kindOf : List Token → Token.Kind
  | [] => .eof
  | t::_ => t.kind

def peek : Reader Token.Kind := fun ts => .ok (kindOf ts,ts)

def skip : Reader Unit := fun ts => .ok ((),ts.tail)

def expect (k : Token.Kind) : Reader Token
  | t::ts => if t.kind = k then .ok (t,ts) else .error ⟨.expected k,t::ts⟩
  | [] => .error ⟨.expected k,[]⟩

/-- Takes items, at most `n` of them, as long as the next token may start one. -/
def upTo {α : Type} (starts : Token.Kind → Bool) (item : Reader α) : Nat → Reader (List α)
  | 0 => pure []
  | n+1 => do
    if starts (← peek) then
      let a ← item
      return a :: (← upTo starts item n)
    else return []

def many {α : Type} (starts : Token.Kind → Bool) (item : Reader α) : Reader (List α) :=
  fun ts => upTo starts item ts.length ts

/-- One item and, after each comma, another; at most `n` more. -/
def commaList {α : Type} (item : Reader α) : Nat → Reader (List α)
  | 0 => return [← item]
  | n+1 => do
    let a ← item
    if (← peek) = .comma then
      skip
      return a :: (← commaList item n)
    else return [a]

def list {α : Type} (item : Reader α) : Reader (List α) :=
  fun ts => commaList item ts.length ts

/-! Expressions. -/

def relation? : Token.Kind → Option BinaryOp
  | .equal => some .eq
  | .notEqual => some .ne
  | .less => some .lt
  | .lessEqual => some .le
  | .greater => some .gt
  | .greaterEqual => some .ge
  | _ => none

def additive? : Token.Kind → Option BinaryOp
  | .plus => some .add
  | .minus => some .sub
  | _ => none

def multiplicative? : Token.Kind → Option BinaryOp
  | .star => some .mul
  | .slash => some .div
  | _ => none

/-- Integer literals are decimal and at most 2^31 - 1. -/
def integerValue? (lexeme : String) : Option Nat :=
  (decimalValue? lexeme.toList).filter (· ≤ 2147483647)

/-- Array lengths are decimal, at least 1 and at most 2^63 - 1. -/
def lengthValue? (lexeme : String) : Option Nat :=
  (decimalValue? lexeme.toList).filter fun n => 0 < n ∧ n ≤ 9223372036854775807

def arguments (expr : Reader Expr) : Reader (List Expr) := do
  if (← peek) = .rightParen then
    skip
    return []
  else
    let args ← list expr
    let _ ← expect .rightParen
    return args

def named (expr : Reader Expr) (pos : Position) (name : String) : Reader Expr := do
  match ← peek with
  | .leftParen =>
    skip
    return .call pos name (← arguments expr)
  | .leftBracket =>
    skip
    let index ← expr
    let _ ← expect .rightBracket
    return .element pos name index
  | _ => return .variable pos name

def parenthesized (expr : Reader Expr) : Reader Expr := do
  let _ ← expect .leftParen
  let e ← expr
  let _ ← expect .rightParen
  return e

def factor (expr : Reader Expr) : Reader Expr := fun ts =>
  match ts with
  | [] => .error ⟨.unexpected,[]⟩
  | t::rest =>
    match t.kind with
    | .identifier => named expr t.position t.lexeme rest
    | .integer =>
      match integerValue? t.lexeme with
      | some n => .ok (.integer n,rest)
      | none => .error ⟨.badInteger t.lexeme,ts⟩
    | .decimal =>
      match Binary32.ofLiteral? t.lexeme.toList with
      | some x => .ok (.decimal x,rest)
      | none => .error ⟨.badDecimal t.lexeme,ts⟩
    | .leftParen => parenthesized expr ts
    | _ => .error ⟨.unexpected,ts⟩

/-- Operators of one level, at most `n` of them, grouped from the left. -/
def chain (op? : Token.Kind → Option BinaryOp) (item : Reader Expr) : Nat → Expr → Reader Expr
  | 0, left => return left
  | n+1, left => do
    match op? (← peek) with
    | none => return left
    | some op =>
      skip
      let right ← item
      chain op? item n (.binary op left right)

def leftGrouped (op? : Token.Kind → Option BinaryOp) (item : Reader Expr) : Reader Expr := fun ts =>
  (do chain op? item ts.length (← item) : Reader Expr) ts

def term (expr : Reader Expr) : Reader Expr := leftGrouped multiplicative? (factor expr)

def sum (expr : Reader Expr) : Reader Expr := leftGrouped additive? (term expr)

/-- At most one relation between two sums. -/
def simple (expr : Reader Expr) : Reader Expr := do
  let left ← sum expr
  match relation? (← peek) with
  | none => return left
  | some op =>
    skip
    return .binary op left (← sum expr)

/-- Assigning to the variable or element that an expression names. -/
def assignTo? : Expr → Option (Expr → Expr)
  | .variable pos name => some (.assign pos name)
  | .element pos name index => some (.assignElement pos name index)
  | _ => none

def expression : Nat → Reader Expr
  | 0 => fail .unexpected
  | n+1 => do
    let left ← simple (expression n)
    if (← peek) = .assign then
      match assignTo? left with
      | none => fail .notAssignable
      | some assign =>
        skip
        return assign (← expression n)
    else return left

/-- An expression, nested as deep as the tokens left allow. -/
def expr : Reader Expr := fun ts => expression ts.length ts

/-! Declarations. -/

def typeKey? : Token.Kind → Option (Option Scalar)
  | .intKey => some (some .int)
  | .floatKey => some (some .float)
  | .voidKey => some none
  | _ => none

/-- The type a declaration starts with, and where it stands. -/
def type : Reader (Position × Option Scalar)
  | [] => .error ⟨.expectedType,[]⟩
  | t::ts =>
    match typeKey? t.kind with
    | some s => .ok ((t.position,s),ts)
    | none => .error ⟨.expectedType,t::ts⟩

def arrayLength : Reader (Option Nat) := do
  if (← peek) = .leftBracket then
    skip
    let t ← expect .integer
    match lengthValue? t.lexeme with
    | none => fail (.badLength t.lexeme)
    | some n =>
      let _ ← expect .rightBracket
      return some n
  else return none

def variableRest (pos : Position) (result : Option Scalar) (name : String) :
    Reader VariableDecl := do
  match result with
  | none => fail (.voidVariable name)
  | some scalar =>
    let length ← arrayLength
    let _ ← expect .semicolon
    return ⟨pos,name,scalar,length⟩

def variableDecl : Reader VariableDecl := do
  let (pos,result) ← type
  let name ← expect .identifier
  variableRest pos result name.lexeme

def parameter : Reader Parameter := do
  let (pos,result) ← type
  let name ← expect .identifier
  match result with
  | none => fail (.voidParameter name.lexeme)
  | some scalar =>
    if (← peek) = .leftBracket then
      skip
      let _ ← expect .rightBracket
      return ⟨pos,name.lexeme,scalar,true⟩
    else return ⟨pos,name.lexeme,scalar,false⟩

def parameters : Reader (List Parameter) := do
  match ← peek with
  | .voidKey =>
    skip
    if (← peek) = .rightParen then return [] else fail .voidParameters
  | .rightParen => return []
  | _ => list parameter

/-! Statements. -/

def startsDecl (k : Token.Kind) : Bool := (typeKey? k).isSome

def continuesBlock (k : Token.Kind) : Bool := k ≠ .rightBrace && k ≠ .eof

/-- A block between braces, declarations before statements. -/
def block (stmt : Reader Stmt) : Reader (List VariableDecl × List Stmt) := do
  let _ ← expect .leftBrace
  let decls ← many startsDecl variableDecl
  let body ← many continuesBlock stmt
  let _ ← expect .rightBrace
  return (decls,body)

def returnRest (pos : Position) : Reader Stmt := do
  if (← peek) = .semicolon then
    skip
    return .ret pos none
  else
    let e ← expr
    let _ ← expect .semicolon
    return .ret pos (some e)

/-- An `else` belongs to the nearest `if` before it. -/
def ifRest (stmt : Reader Stmt) : Reader Stmt := do
  let condition ← parenthesized expr
  let yes ← stmt
  if (← peek) = .elseKey then
    skip
    return .ifElse condition yes (← stmt)
  else return .ifThen condition yes

def whileRest (stmt : Reader Stmt) : Reader Stmt := do
  let condition ← parenthesized expr
  return .loop condition (← stmt)

def expressionStmt : Reader Stmt := do
  let e ← expr
  let _ ← expect .semicolon
  return .expr e

def statement : Nat → Reader Stmt
  | 0 => fail .unexpected
  | n+1 => fun ts =>
    match ts with
    | [] => .error ⟨.unexpected,[]⟩
    | t::rest =>
      match t.kind with
      | .leftBrace =>
        (do let (decls,body) ← block (statement n); return .block decls body : Reader Stmt) ts
      | .semicolon => .ok (.empty,rest)
      | .returnKey => returnRest t.position rest
      | .ifKey => ifRest (statement n) rest
      | .whileKey => whileRest (statement n) rest
      | _ => expressionStmt ts

/-- A statement, nested as deep as the tokens left allow. -/
def stmt : Reader Stmt := fun ts => statement ts.length ts

def functionRest (pos : Position) (result : Option Scalar) (name : String) :
    Reader FunctionDecl := do
  let params ← parameters
  let _ ← expect .rightParen
  let (decls,body) ← block stmt
  return ⟨pos,name,result,params,decls,body⟩

def decl : Reader Decl := do
  let (pos,result) ← type
  let name ← expect .identifier
  if (← peek) = .leftParen then
    skip
    return .function (← functionRest pos result name.lexeme)
  else return .variable (← variableRest pos result name.lexeme)

def program : Reader Program := return ⟨← many (· ≠ .eof) decl⟩

end Reader

structure SyntaxError where
  file : String
  position : Position
  found : String
  cause : SyntaxCause
deriving DecidableEq, Repr

def SyntaxError.message (e : SyntaxError) : String :=
  let place := if e.file = "" then e.position.text else e.file ++ ":" ++ e.position.text
  place ++ ": " ++ e.cause.message e.found

namespace Program

/-- Reads the tokens before the first `eof`, at which errors at the end are placed. -/
def ofTokens (file : String) (tokens : List Token) : Except SyntaxError Program :=
  let (body,finish) := tokens.span fun t => t.kind ≠ .eof
  match Reader.program body with
  | .ok (p,_) => .ok p
  | .error ⟨cause,rest⟩ =>
    match rest ++ finish with
    | t::_ => .error ⟨file,t.position,t.lexeme,cause⟩
    | [] => .error ⟨file,Position.start,"",cause⟩

def parse (file source : String) : Except SyntaxError Program := ofTokens file (Token.scan source)

end Program
end CMinusF
