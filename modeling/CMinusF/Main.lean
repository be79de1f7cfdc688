import CMinusF.CommandLine.Build

/-! The programs: the compiler, and under the name `debug_tokens` the token lister. -/
namespace CMinusF.CommandLine

def fileError? : IO.Error → Option FileError
  | .noFileOrDirectory _ _ _ => some .missing
  | .inappropriateType _ _ why =>
    some (if why.toLower = "is a directory" then .isDirectory else .notDirectory)
  | .invalidArgument _ _ why =>
    some (if why.toLower = "name too long" then .nameTooLong else .invalid)
  | .resourceExhausted _ _ _ => some .noSpace
  | _ => none

/-- What is said of a path that could not be used; a directory can be opened, only not read. -/
def accessMessage (reading : Bool) (path : String) (e : IO.Error) : String :=
  match fileError? e with
  | some .isDirectory => AccessError.message ⟨if reading then "read" else "open",path,.isDirectory⟩
  | some .noSpace => AccessError.message ⟨"write",path,.noSpace⟩
  | some error => AccessError.message ⟨"open",path,error⟩
  | none => toString e

partial def readAll (h : IO.FS.Stream) (text : String) : IO String := do
  let line ← h.getLine
  if line.isEmpty then return text else readAll h (text ++ line)

def log (s : String) : IO Unit := do (← IO.getStderr).putStr (logLine s)

/-- Builds a source file once and gives the exit code; what failed is in the log. -/
def buildFile (s : Settings) (path : String) : IO (Option Int) := do
  try
    let source ← IO.FS.readFile path
    let input ← if s.run then readAll (← IO.getStdin) "" else pure ""
    let o := build s path source input
    IO.print o.output
    o.log.forM log
    if let some (target,text) := o.file then
      try
        IO.FS.writeFile target text
      catch e =>
        log (accessMessage false target e)
        return none
    return o.code
  catch e =>
    log (accessMessage true path e)
    return none

/-- Builds again whenever the source file has changed. -/
partial def watchFile (s : Settings) (path : String) (last : Option String) : IO Unit := do
  let now ← try some <$> IO.FS.readFile path catch _ => pure none
  if now.isSome ∧ now ≠ last then
    if (← buildFile s path).isSome then log s!"built {path}"
  IO.sleep 200
  watchFile s path now

def runCompiler (args : List String) : IO UInt32 := do
  match Settings.ofArguments args with
  | .error r =>
    (← IO.getStderr).putStr (r.message ++ usage)
    return (exitByte (some r.exitCode)).toUInt32
  | .ok (s,path) =>
    if s.watch then watchFile s path none
    return (exitByte (← buildFile s path)).toUInt32

def runTokenLister (args : List String) : IO UInt32 := do
  match args with
  | [] =>
    IO.print tokenUsage
    return 2
  | path::_ =>
    try
      IO.print (tokenLines (← IO.FS.readFile path))
      return 0
    catch e =>
      (← IO.getStderr).putStr (accessMessage true path e ++ "\n")
      return 1

end CMinusF.CommandLine

def main (args : List String) : IO UInt32 := do
  if (← IO.appPath).fileName = some "debug_tokens" then CMinusF.CommandLine.runTokenLister args
  else CMinusF.CommandLine.runCompiler args
