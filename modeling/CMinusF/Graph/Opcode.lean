import CMinusF.Text.Unprintable

/-! Operation codes of the intermediate code. -/
namespace CMinusF

inductive Arith where
  | add | sub | mul | div
deriving DecidableEq, Repr, Inhabited

inductive Relation where
  | ge | gt | le | lt | eq | ne
deriving DecidableEq, Repr, Inhabited

inductive Opcode where
  | ret | br
  | int (op : Arith) | float (op : Arith)
  | alloca | load | store
  | icmp (rel : Relation) | fcmp (rel : Relation)
  | phi | call | gep | zext | fptosi | sitofp
  /-- A number that is no operation's. -/
  | unknown (code : Int)
deriving DecidableEq, Repr, Inhabited

namespace Opcode

/-- The operations, in the order of their numbers. -/
def all : List Opcode := [.ret,.br,.int .add,.int .sub,.int .mul,.int .div,
  .float .add,.float .sub,.float .mul,.float .div,.alloca,.load,.store,
  .icmp .ge,.icmp .gt,.icmp .le,.icmp .lt,.icmp .eq,.icmp .ne,
  .fcmp .ge,.fcmp .gt,.fcmp .le,.fcmp .lt,.fcmp .eq,.fcmp .ne,
  .phi,.call,.gep,.zext,.fptosi,.sitofp]

def ofCode (n : Int) : Opcode :=
  if n < 0 then .unknown n else all.getD n.toNat (.unknown n)

def name : Opcode → String
  | .ret => "ret"
  | .br => "br"
  | .int .add => "add"
  | .int .sub => "sub"
  | .int .mul => "mul"
  | .int .div => "sdiv"
  | .float .add => "fadd"
  | .float .sub => "fsub"
  | .float .mul => "fmul"
  | .float .div => "fdiv"
  | .alloca => "alloca"
  | .load => "load"
  | .store => "store"
  | .icmp .ge => "icmp sge"
  | .icmp .gt => "icmp sgt"
  | .icmp .le => "icmp sle"
  | .icmp .lt => "icmp slt"
  | .icmp .eq => "icmp eq"
  | .icmp .ne => "icmp ne"
  | .fcmp .ge => "fcmp uge"
  | .fcmp .gt => "fcmp ugt"
  | .fcmp .le => "fcmp ule"
  | .fcmp .lt => "fcmp ult"
  | .fcmp .eq => "fcmp ueq"
  | .fcmp .ne => "fcmp une"
  | .phi => "phi"
  | .call => "call"
  | .gep => "getelementptr"
  | .zext => "zext"
  | .fptosi => "fptosi"
  | .sitofp => "sitofp"
  | .unknown n => if n < 0 then (Unprintable.outOfRange n all.length).note else "op?"

def isIntArith : Opcode → Bool
  | .int _ => true
  | _ => false

def isFloatArith : Opcode → Bool
  | .float _ => true
  | _ => false

def isIntCompare : Opcode → Bool
  | .icmp _ => true
  | _ => false

def isFloatCompare : Opcode → Bool
  | .fcmp _ => true
  | _ => false

def isTerminator : Opcode → Bool
  | .ret | .br => true
  | _ => false

end Opcode
end CMinusF
