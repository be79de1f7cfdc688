import CMinusF.Position

/-! Tokens: a kind, the characters it was read from, and where they start. -/
namespace CMinusF

inductive Token.Kind where
  | eof | illegal
  | identifier | integer | decimal
  | intKey | floatKey | voidKey | returnKey | ifKey | elseKey | whileKey
  | leftParen | rightParen | leftBrace | rightBrace | leftBracket | rightBracket
  | semicolon | comma | assign
  | plus | minus | star | slash
  | equal | notEqual | less | lessEqual | greater | greaterEqual
deriving DecidableEq, Repr, Inhabited

structure Token where
  kind : Token.Kind
  lexeme : String
  position : Position
deriving DecidableEq, Repr

namespace Token.Kind

def all : List Kind :=
  [.eof,.illegal,.identifier,.integer,.decimal,.intKey,.floatKey,.voidKey,.returnKey,.ifKey,
    .elseKey,.whileKey,
  .leftParen,.rightParen,.leftBrace,.rightBrace,.leftBracket,.rightBracket,.semicolon,
    .comma,.assign,
  .plus,.minus,.star,.slash,.equal,.notEqual,.less,.lessEqual,.greater,.greaterEqual]

def name : Kind → String
  | .eof => "EOF"
  | .illegal => "ILLEGAL"
  | .identifier => "IDENT"
  | .integer => "INT"
  | .decimal => "FLOAT"
  | .intKey => "int"
  | .floatKey => "float"
  | .voidKey => "void"
  | .returnKey => "return"
  | .ifKey => "if"
  | .elseKey => "else"
  | .whileKey => "while"
  | .leftParen => "("
  | .rightParen => ")"
  | .leftBrace => "\x7b"
  | .rightBrace => "\x7d"
  | .leftBracket => "["
  | .rightBracket => "]"
  | .semicolon => ";"
  | .comma => ","
  | .assign => "="
  | .plus => "+"
  | .minus => "-"
  | .star => "*"
  | .slash => "/"
  | .equal => "=="
  | .notEqual => "!="
  | .less => "<"
  | .lessEqual => "<="
  | .greater => ">"
  | .greaterEqual => ">="

def keyword? : String → Option Kind
  | "int" => some .intKey
  | "float" => some .floatKey
  | "void" => some .voidKey
  | "return" => some .returnKey
  | "if" => some .ifKey
  | "else" => some .elseKey
  | "while" => some .whileKey
  | _ => none

end Token.Kind
end CMinusF
