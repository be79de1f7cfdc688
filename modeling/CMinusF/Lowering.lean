import CMinusF.Lowering.Stmt

/-! Building the intermediate code of a program: every variable lives in memory and is accessed by
loads and stores. -/
namespace CMinusF
namespace Lowering

/-- The module with the names declared so far. -/
structure Declared where
  module : Module
  globals : Scope
  funcs : List (String × FuncId)

def Declared.start (m : Module) : Declared :=
  Builtin.all.foldl (fun s b =>
    let (m,f) := s.module.addFunc b.name b.result b.params
    ⟨m,s.globals,s.funcs ++ [(b.name,f)]⟩) ⟨m,[],[]⟩

def globalDecl (s : Declared) (d : VariableDecl) : Except LoweringError Declared :=
  if (find? d.name s.globals).isSome then .error ⟨d.pos,.redeclared d.name⟩
  else
    let t := variableType d
    let (m,g) := s.module.addGlobal d.name t
    .ok ⟨m,(d.name,⟨.global g,t⟩) :: s.globals,s.funcs⟩

def functionDecl (s : Declared) (d : FunctionDecl) : Except LoweringError Declared :=
  if (find? d.name s.funcs).isSome then .error ⟨d.pos,.functionRedeclared d.name⟩
  else do
    let result := resultType d.result
    let (m,f) := s.module.addFunc d.name result (d.params.map parameterType)
    let funcs := s.funcs ++ [(d.name,f)]
    let (m,entry) := m.addBlock f "entry"
    let c : Context := ⟨f,d.name,result,funcs,s.globals,[]⟩
    let (_,t) ← functionBody c d ⟨m,entry,false⟩
    return ⟨t.module,s.globals,funcs⟩

def decl (s : Declared) : Decl → Except LoweringError Declared
  | .variable d => globalDecl s d
  | .function d => functionDecl s d

end Lowering

def Program.lower (p : Program) (m : Module) : Except LoweringError Module := do
  let s ← p.decls.foldlM Lowering.decl (Lowering.Declared.start m)
  return s.module

end CMinusF
