import CMinusF.CommandLine.Files
import CMinusF.CommandLine.Flags
import CMinusF.Compilation
import CMinusF.Machine.Run
import CMinusF.Text.ByteSize
import CMinusF.Text.Padding

/-! What the compiler does with one source file, and the listing of its tokens. -/
namespace CMinusF.CommandLine

/-- What is left to do when the work is done: texts to print, log lines, a file to write. -/
structure Outcome where
  /-- The exit code; none if something failed. -/
  code : Option Int
  output : String
  log : List String
  file : Option (String × String)
  /-- What is left to say of a breakdown. -/
  trace : String

def baseName (path : String) : String := (Files.steps path).getLastD path

def stepLimit : Nat := 50000000

def report (c : Compilation) : List String :=
  [s!"mem2reg: {c.stats.promotion.promoted} locals promoted, {c.stats.promotion.phis} phis placed",
    s!"licm: {c.stats.hoisting.hoisted} instructions hoisted, {c.stats.hoisting.preheaders} preheaders created",
    s!"critical edges split: {c.split}"] ++
    c.frames.map fun (f,size) => s!"frame {f}: {Text.byteSize size}"

def breakdown (output : String) (log : List String) : Outcome :=
  ⟨some 2,output,log,none,"panic: " ++ Fault.tooLong.message ++ "\n"⟩

/-- Runs `main`; what it returns is the exit code. -/
def execute (m : Module) (input : String) (log : List String) : Outcome :=
  match Machine.new m .empty input stepLimit with
  | none => breakdown "" log
  | some mc =>
    match mc.main m with
    | (mc,.ok n) => ⟨some n,mc.world.output,log,none,""⟩
    | (mc,.error (.fault _ .tooLong)) => breakdown mc.world.output log
    | (mc,.error e) => ⟨none,mc.world.output,log ++ [e.message],none,""⟩

def build (s : Settings) (path source input : String) : Outcome :=
  match Module.ofSource (baseName path) source with
  | .error e => ⟨none,"",[e.message],none,""⟩
  | .ok m =>
    let c := if s.emitCode || s.run then Compilation.transformed m s.options
      else .ofModule m s.options
    let log := if s.verbose then report c else []
    if !c.failures.isEmpty then ⟨none,"",log ++ [c.message],none,""⟩
    else if s.run then execute c.module input log
    else
      let text := if s.emitCode then c.module.text else c.listing.text
      if s.output = "" then ⟨some 0,text,log,none,""⟩ else ⟨some 0,"",log,some (s.output,text),""⟩

def logLine (s : String) : String := "cminusc: " ++ s ++ if s.endsWith "\n" then "" else "\n"

/-- Exit codes are a byte; that of a failure is one. -/
def exitByte (code : Option Int) : Nat := (code.getD 1 % 256).toNat

def compiler (args : List String) (s : Surroundings) : Nat × Surroundings :=
  match Settings.ofArguments args with
  | .error r => (exitByte (some r.exitCode),s.complain (r.message ++ usage))
  | .ok (settings,path) =>
    match s.read path with
    | .error e => (exitByte none,s.complain (logLine e.message))
    | .ok (source,s) =>
      let o := build settings path source s.input
      let s := (s.print o.output).complain (String.join (o.log.map logLine) ++ o.trace)
      match o.file with
      | none => (exitByte o.code,s)
      | some (target,text) =>
        match s.write target text with
        | .ok s => (exitByte o.code,s)
        | .error e => (exitByte none,s.complain (logLine e.message))

def tokenLines (source : String) : String :=
  String.join ((Token.scan source).map fun t =>
    s!"{Text.padRight 8 t.kind.name} {Text.quoted t.lexeme} at {t.position.text}\n")

def tokenUsage : String := "usage: debug_tokens <file>\n"

def tokenLister (args : List String) (s : Surroundings) : Nat × Surroundings :=
  match args with
  | [] => (2,s.print tokenUsage)
  | path::_ =>
    match s.read path with
    | .error e => (1,s.complain (e.message ++ "\n"))
    | .ok (source,s) => (0,s.print (tokenLines source))

end CMinusF.CommandLine
