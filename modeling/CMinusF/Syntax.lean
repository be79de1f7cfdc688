import CMinusF.Position
import CMinusF.Binary32

/-! The syntax tree of a program: variable declarations and function definitions in source order. -/
namespace CMinusF

/-- The types a variable or an element can have. -/
inductive Scalar where
  | int | float
deriving DecidableEq, Repr, Inhabited

def Scalar.name : Scalar → String
  | .int => "int"
  | .float => "float"

/-- What a function returns; `none` is no value. -/
def returnName : Option Scalar → String
  | none => "void"
  | some s => s.name

inductive BinaryOp where
  | add | sub | mul | div | eq | ne | lt | le | gt | ge
deriving DecidableEq, Repr, Inhabited

namespace BinaryOp

def all : List BinaryOp := [.add,.sub,.mul,.div,.eq,.ne,.lt,.le,.gt,.ge]

def isComparison : BinaryOp → Bool
  | .add | .sub | .mul | .div => false
  | _ => true

def symbol : BinaryOp → String
  | .add => "+"
  | .sub => "-"
  | .mul => "*"
  | .div => "/"
  | .eq => "=="
  | .ne => "!="
  | .lt => "<"
  | .le => "<="
  | .gt => ">"
  | .ge => ">="

end BinaryOp

inductive Expr where
  | integer (value : Int)
  | decimal (value : Binary32)
  | variable (pos : Position) (name : String)
  | element (pos : Position) (name : String) (index : Expr)
  | assign (pos : Position) (name : String) (value : Expr)
  | assignElement (pos : Position) (name : String) (index value : Expr)
  | binary (op : BinaryOp) (left right : Expr)
  | call (pos : Position) (name : String) (args : List Expr)
deriving Repr, Inhabited

/-- A variable, or an array if it has a length. -/
structure VariableDecl where
  pos : Position
  name : String
  scalar : Scalar
  length : Option Nat
deriving DecidableEq, Repr

/-- A parameter; an array parameter stands for the address of its first element. -/
structure Parameter where
  pos : Position
  name : String
  scalar : Scalar
  isArray : Bool
deriving DecidableEq, Repr

inductive Stmt where
  | empty
  | expr (e : Expr)
  | block (decls : List VariableDecl) (body : List Stmt)
  | ifThen (condition : Expr) (yes : Stmt)
  | ifElse (condition : Expr) (yes no : Stmt)
  | loop (condition : Expr) (body : Stmt)
  | ret (pos : Position) (value : Option Expr)
deriving Repr, Inhabited

structure FunctionDecl where
  pos : Position
  name : String
  result : Option Scalar
  params : List Parameter
  decls : List VariableDecl
  body : List Stmt
deriving Repr

inductive Decl where
  | variable (d : VariableDecl)
  | function (f : FunctionDecl)
deriving Repr

structure Program where
  decls : List Decl
deriving Repr

end CMinusF
