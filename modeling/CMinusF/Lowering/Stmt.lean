import CMinusF.Lowering.Expr

/-! The code of statements and function bodies. Nothing is built after a return. -/
namespace CMinusF
namespace Lowering

/-- Opens a scope with the given variables; their storage is reserved on entry to the function. -/
def declare (c : Context) : Scope → List VariableDecl → Build Scope
  | scope, [] => return scope
  | scope, d::ds => do
    let t := variableType d
    let slot ← edit (·.allocaAtEntry c.func t)
    if (find? d.name scope).isSome then fail d.pos (.redeclared d.name)
    declare c ((d.name,⟨.instr slot,t⟩) :: scope) ds

def returnStmt (c : Context) (pos : Position) : Option Expr → Build Unit
  | none => do
    if !c.result.isVoid then fail pos (.mustReturn c.name)
    emit_ (·.ret · none)
    finish
  | some e => do
    if c.result.isVoid then fail pos (.voidReturnsValue c.name)
    let v ← expr c e
    let v ← convert v c.result
    emit_ (·.ret · (some v))
    finish

/-- Branches to the block where the arms of an `if` join, unless the arm has ended; the block is
made when it is first needed, so that arms that both return leave none behind. -/
def branchToJoin (c : Context) (join : Option BlockId) : Build (Option BlockId) := do
  if ← isDead then return join
  let b ← match join with
    | some b => pure b
    | none => newBlock c "ifcont"
  emit_ (·.br · b)
  return some b

mutual
def stmt (c : Context) : Stmt → Build Unit
  | .empty => return ()
  | .expr e => do
    let _ ← expr c e
  | .block decls body => do
    let scope ← declare c [] decls
    stmts { c with scopes := scope :: c.scopes } body
  | .ifThen e yes => do
    let v ← condition c e
    let yesBlock ← newBlock c "then"
    let join ← newBlock c "ifcont"
    emit_ (·.condBr · v yesBlock join)
    setBlock yesBlock
    stmt c yes
    let _ ← branchToJoin c (some join)
    setBlock join
  | .ifElse e yes no => do
    let v ← condition c e
    let yesBlock ← newBlock c "then"
    let noBlock ← newBlock c "else"
    emit_ (·.condBr · v yesBlock noBlock)
    setBlock yesBlock
    stmt c yes
    let join ← branchToJoin c none
    setBlock noBlock
    stmt c no
    match ← branchToJoin c join with
    | some b => setBlock b
    | none => finish
  | .loop e body => do
    let head ← newBlock c "loopcond"
    emit_ (·.br · head)
    setBlock head
    let v ← condition c e
    let bodyBlock ← newBlock c "loopbody"
    let exit ← newBlock c "afterloop"
    emit_ (·.condBr · v bodyBlock exit)
    setBlock bodyBlock
    stmt c body
    if !(← isDead) then emit_ (·.br · head)
    setBlock exit
  | .ret pos e => returnStmt c pos e
/-- Statements in order; those after a return are not built. -/
def stmts (c : Context) : List Stmt → Build Unit
  | [] => return ()
  | s::ss => do
    if ← isDead then return ()
    stmt c s
    stmts c ss
end

def declareParams (c : Context) : Scope → Nat → List Parameter → Build (Scope × List Operand)
  | scope, _, [] => return (scope,[])
  | scope, n, p::ps => do
    let t := parameterType p
    let slot ← emit (·.alloca · t)
    if (find? p.name scope).isSome then fail p.pos (.redeclared p.name)
    let (scope,slots) ← declareParams c ((p.name,⟨slot,t⟩) :: scope) (n + 1) ps
    return (scope,slot :: slots)

def storeParams (c : Context) : Nat → List Operand → Build Unit
  | _, [] => return ()
  | n, slot::slots => do
    emit_ (·.store · (.arg c.func n) slot)
    storeParams c (n + 1) slots

/-- A function that ends without a return gives zero. -/
def functionBody (c : Context) (d : FunctionDecl) : Build Unit := do
  let (scope,slots) ← declareParams c [] 0 d.params
  storeParams c 0 slots
  let c := { c with scopes := [scope] }
  stmt c (.block d.decls d.body)
  if !(← isDead) then
    if c.result.isVoid then emit_ (·.ret · none)
    else
      let zero ← constant (if c.result.isFloat then .float ⟨0⟩ else .int 0)
      emit_ (·.ret · (some zero))

end Lowering
end CMinusF
