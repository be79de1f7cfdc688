import CMinusF.Token
import CMinusF.Text.Letter
import CMinusF.Text.Digit
import CMinusF.Text.Blank

/-! Reading a source text as tokens. A text ends at its first null character; between two tokens
stands a gap of white space and comments, and each token is the longest lexeme of its class. -/
namespace CMinusF.Token
open Text

/-- What the characters of a gap are being read as. -/
inductive Gap where
  | blank | lineComment | blockComment
deriving DecidableEq, Repr

def splitGap : Gap → List Char → List Char × List Char
  | _, [] => ([],[])
  | .blank, '/' :: '/' ::cs => let r := splitGap .lineComment cs; ('/' :: '/' ::r.1,r.2)
  | .blank, '/' :: '*' ::cs => let r := splitGap .blockComment cs; ('/' :: '*' ::r.1,r.2)
  | .blank, c::cs =>
    if isBlank c then let r := splitGap .blank cs; (c::r.1,r.2) else ([],c::cs)
  | .lineComment, c::cs =>
    let r := splitGap (if c = '\n' then .blank else .lineComment) cs; (c::r.1,r.2)
  | .blockComment, '*' :: '/' ::cs => let r := splitGap .blank cs; ('*' :: '/' ::r.1,r.2)
  | .blockComment, c::cs => let r := splitGap .blockComment cs; (c::r.1,r.2)

theorem splitGap_append (g : Gap) (cs : List Char) :
    (splitGap g cs).1 ++ (splitGap g cs).2 = cs := by
  fun_induction splitGap g cs <;> simp_all +zetaDelta

def isWordStart (c : Char) : Bool := isLetter c || c == '_'

def isWordPart (c : Char) : Bool := isLetter c || isDigit c || c == '_'

/-- The operators and separators that no following character can extend. -/
def single? : Char → Option Kind
  | '(' => some .leftParen
  | ')' => some .rightParen
  | '\x7b' => some .leftBrace
  | '\x7d' => some .rightBrace
  | '[' => some .leftBracket
  | ']' => some .rightBracket
  | ';' => some .semicolon
  | ',' => some .comma
  | '+' => some .plus
  | '-' => some .minus
  | '*' => some .star
  | '/' => some .slash
  | _ => none

/-- The characters that a following equals sign extends: the kind alone and the kind extended. -/
def extensible? : Char → Option (Kind × Kind)
  | '=' => some (.assign,.equal)
  | '<' => some (.less,.lessEqual)
  | '>' => some (.greater,.greaterEqual)
  | '!' => some (.illegal,.notEqual)
  | _ => none

/-- Digits, and a fraction if a point follows; either side of the point may be empty. -/
def number (cs : List Char) : Kind × List Char :=
  let whole := cs.takeWhile isDigit
  match cs.dropWhile isDigit with
  | '.' ::rest => (.decimal,whole ++ '.' :: rest.takeWhile isDigit)
  | _ => (.integer,whole)

def startsNumber (c : Char) (cs : List Char) : Bool :=
  isDigit c || (c == '.' && cs.head?.any isDigit)

/-- The token at the front of the text `c :: cs`, which starts with no gap: its kind and lexeme. -/
def lexemeAt (c : Char) (cs : List Char) : Kind × List Char :=
  match single? c with
  | some k => (k,[c])
  | none =>
    match extensible? c with
    | some (alone,extended) =>
      match cs with
      | '=' ::_ => (extended,[c,'='])
      | _ => (alone,[c])
    | none =>
      if isWordStart c then
        let word := c :: cs.takeWhile isWordPart
        ((Kind.keyword? (String.ofList word)).getD .identifier,word)
      else if startsNumber c cs then number (c::cs)
      else (.illegal,[c])

/-- Reads the tokens of a text of at most `n` characters, `p` being where the last one before it
stands. -/
def scanFrom : Nat → Position → List Char → List Token
  | 0, _, _ => []
  | n+1, p, cs =>
    match splitGap .blank cs with
    | (_,[]) => []
    | (gap,c::rest) =>
      let (kind,lexeme) := lexemeAt c rest
      let p := p.after gap
      ⟨kind,String.ofList lexeme,p.step c⟩ ::
        scanFrom n (p.after lexeme) ((c::rest).drop lexeme.length)

def visible (cs : List Char) : List Char := cs.takeWhile (· ≠ '\x00')

/-- The tokens of a source text; the last one, of kind `eof`, stands at the null character or, if
there is none, at the last character. -/
def scan (source : String) : List Token :=
  let cs := source.toList
  let body := visible cs
  let finish := (Position.start.after body).after ((cs.drop body.length).take 1)
  scanFrom body.length Position.start body ++ [⟨.eof,"",finish⟩]

end CMinusF.Token
