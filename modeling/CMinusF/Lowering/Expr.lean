import CMinusF.Builtin
import CMinusF.Lowering.Basic

/-! The code of expressions. Mixed arithmetic is done on decimals, and every array index is checked
for its sign. -/
namespace CMinusF
namespace Lowering

/-- The conversions between integers and decimals that need no spelling out. -/
def convert (v : Operand) (target : Ty) : Build Operand := do
  let t ← typeOf v
  if target = .float ∧ t = .i32 then emit (·.sitofp · v)
  else if target = .i32 ∧ t = .float then emit (·.fptosi · v)
  else return v

def intOpcode : BinaryOp → Opcode
  | .add => .int .add
  | .sub => .int .sub
  | .mul => .int .mul
  | .div => .int .div
  | .eq => .icmp .eq
  | .ne => .icmp .ne
  | .lt => .icmp .lt
  | .le => .icmp .le
  | .gt => .icmp .gt
  | .ge => .icmp .ge

def floatOpcode : BinaryOp → Opcode
  | .add => .float .add
  | .sub => .float .sub
  | .mul => .float .mul
  | .div => .float .div
  | .eq => .fcmp .eq
  | .ne => .fcmp .ne
  | .lt => .fcmp .lt
  | .le => .fcmp .le
  | .gt => .fcmp .gt
  | .ge => .fcmp .ge

/-- The address of an element; a negative index is reported at run time before it is used. -/
def elementAddress (c : Context) (pos : Position) (name : String) (index : Build Operand) :
    Build Operand := do
  let s ← lookup c pos name
  if !s.type.isArray && !s.type.isPointer then fail pos (.notArray name)
  let i ← index
  if (← typeOf i).isVoid then fail pos (.voidIndex name)
  let i ← convert i .i32
  let zero ← constant (.int 0)
  let negative ← emit (·.compare · (.icmp .lt) i zero)
  let badBlock ← newBlock c "negidx"
  let goodBlock ← newBlock c "idxok"
  emit_ (·.condBr · negative badBlock goodBlock)
  setBlock badBlock
  match find? Builtin.negativeIndex.name c.funcs with
  | some f => emit_ (·.call · f [])
  | none => pure ()
  emit_ (·.br · goodBlock)
  setBlock goodBlock
  if s.type.isArray then
    let zero ← constant (.int 0)
    emit (·.gep · s.address [zero,i])
  else
    let base ← emit (·.load · s.address)
    emit (·.gep · base [i])

def arrayAddress (c : Context) (pos : Position) (name : String) : Build Operand := do
  let s ← lookup c pos name
  if s.type.isArray then
    let first ← constant (.int 0)
    let second ← constant (.int 0)
    emit (·.gep · s.address [first,second])
  else if s.type.isPointer then emit (·.load · s.address)
  else fail pos (.notArray name)

/-- Stores a value, whose conversion is the value of the assignment. -/
def assignTo (pos : Position) (name : String) (address v : Operand) : Build Operand := do
  if (← typeOf v).isVoid then fail pos (.voidAssigned name)
  let v ← convert v (Module.pointee (← typeOf address))
  emit_ (·.store · v address)
  return v

def binary (op : BinaryOp) (l r : Operand) : Build Operand := do
  let tl ← typeOf l
  let tr ← typeOf r
  if tl.isVoid || tr.isVoid then fail none .voidArithmetic
  let isFloat := tl.isFloat || tr.isFloat
  let l ← if isFloat then convert l .float else pure l
  let r ← if isFloat then convert r .float else pure r
  let code := if isFloat then floatOpcode op else intOpcode op
  if op.isComparison then
    let b ← emit (·.compare · code l r)
    emit (·.zext · b)
  else emit (·.binary · code l r)

def variableSymbol (c : Context) (pos : Position) (name : String) (cause : LoweringCause) :
    Build Symbol := do
  let s ← lookup c pos name
  if s.isVariable then return s else fail pos cause

mutual
def expr (c : Context) : Expr → Build Operand
  | .integer n => constant (.int n)
  | .decimal x => constant (.float x)
  | .variable pos name => do
    let s ← variableSymbol c pos name (.arrayAsValue name)
    emit (·.load · s.address)
  | .element pos name index => do
    let a ← elementAddress c pos name (expr c index)
    emit (·.load · a)
  | .assign pos name value => do
    let s ← variableSymbol c pos name (.arrayAssigned name)
    let v ← expr c value
    assignTo pos name s.address v
  | .assignElement pos name index value => do
    let a ← elementAddress c pos name (expr c index)
    let v ← expr c value
    assignTo pos name a v
  | .binary op left right => do
    let l ← expr c left
    let r ← expr c right
    binary op l r
  | .call pos name args =>
    match find? name c.funcs with
    | none => fail pos (.undefinedFunction name)
    | some f => do
      let params := ((← get).module.func f).params
      if args.length ≠ params.length then
        fail pos (.argumentCount name params.length args.length)
      let vs ← arguments c pos name 1 params args
      emit (·.call · f vs)
/-- The arguments from the one with the given number on; an array parameter takes an array's name.
-/
def arguments (c : Context) (pos : Position) (name : String) : Nat → List Ty → List Expr →
    Build (List Operand)
  | n, t::ts, e::es => do
    let v ←
      if t.isPointer then
        match e with
        | .variable p x => arrayAddress c p x
        | _ => fail pos (.argumentNotArray n name)
      else do
        let v ← expr c e
        let tv ← typeOf v
        if !tv.isScalar || tv.isPointer then fail pos (.badArgument n name)
        convert v t
    let vs ← arguments c pos name (n + 1) ts es
    return v :: vs
  | _, _, _ => return []
end

/-- Whether an expression differs from zero. -/
def condition (c : Context) (e : Expr) : Build Operand := do
  let v ← expr c e
  let t ← typeOf v
  if t.isFloat then
    let zero ← constant (.float ⟨0⟩)
    emit (·.compare · (.fcmp .ne) v zero)
  else if t.isVoid then fail none .voidCondition
  else
    let zero ← constant (.int 0)
    emit (·.compare · (.icmp .ne) v zero)

end Lowering
end CMinusF
