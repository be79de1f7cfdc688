import CMinusF.Text.Quoted
import CMinusF.Transform.Pipeline

/-! The flags of the compiler. -/
namespace CMinusF

inductive Flag where
  | emitCode | hoist | promote | output | run | verbose | watch
deriving DecidableEq, Repr

namespace Flag

def all : List Flag := [.emitCode,.hoist,.promote,.output,.run,.verbose,.watch]

def name : Flag → String
  | .emitCode => "emit-ir"
  | .hoist => "licm"
  | .promote => "mem2reg"
  | .output => "o"
  | .run => "run"
  | .verbose => "v"
  | .watch => "watch"

def help : Flag → String
  | .emitCode => "\n    \tprint the optimized IR instead of assembly"
  | .hoist => "\n    \thoist loop-invariant code (default true)"
  | .promote => "\n    \tpromote locals to SSA values (default true)"
  | .output => " file\n    \twrite the output to file instead of stdout"
  | .run => "\n    \tinterpret main instead of emitting assembly"
  | .verbose => "\treport pass statistics and frame sizes"
  | .watch => "\n    \trecompile whenever the source file changes"

def ofName? (s : String) : Option Flag := all.find? (·.name = s)

end Flag

def usage : String :=
  "usage: cminusc [flags] <file.cminus>\n" ++
    String.join (Flag.all.map fun f => "  -" ++ f.name ++ f.help ++ "\n")

structure Settings where
  options : Options
  emitCode : Bool
  run : Bool
  verbose : Bool
  watch : Bool
  /-- Where to write; standard output if empty. -/
  output : String
deriving DecidableEq, Repr

namespace Settings

def initial : Settings := ⟨⟨true,true⟩,false,false,false,false,""⟩

def switch (s : Settings) (f : Flag) (b : Bool) : Settings :=
  match f with
  | .emitCode => { s with emitCode := b }
  | .hoist => { s with options := { s.options with hoist := b } }
  | .promote => { s with options := { s.options with promote := b } }
  | .run => { s with run := b }
  | .verbose => { s with verbose := b }
  | .watch => { s with watch := b }
  | .output => s

end Settings

inductive Refusal where
  | help
  | argumentCount
  | badForm (arg : String)
  | undefined (name : String)
  | badBoolean (value name : String)
  | needsArgument (name : String)
deriving DecidableEq, Repr

namespace Refusal

def message : Refusal → String
  | .help | .argumentCount => ""
  | .badForm a => s!"bad flag syntax: {a}\n"
  | .undefined x => s!"flag provided but not defined: -{x}\n"
  | .badBoolean v x => s!"invalid boolean value {Text.quoted v} for -{x}: parse error\n"
  | .needsArgument x => s!"flag needs an argument: -{x}\n"

def exitCode : Refusal → Int
  | .help => 0
  | _ => 2

end Refusal

namespace Settings

def boolean? (s : String) : Option Bool :=
  if s ∈ ["1","t","T","true","TRUE","True"] then some true
  else if s ∈ ["0","f","F","false","FALSE","False"] then some false
  else none

/-- An argument that is not a flag, the end of the flags, or a flag with a value if one is attached.
-/
inductive Argument where
  | operand
  | stop
  | malformed
  | flag (name : String) (value : Option String)
deriving DecidableEq, Repr

/-- A flag's name ends at the first equals sign after its first character. -/
def splitFlag (cs : List Char) : Argument :=
  match cs with
  | [] | '-' :: _ | '=' :: _ => .malformed
  | c::cs =>
    let name := String.ofList (c :: cs.takeWhile (· ≠ '='))
    match cs.dropWhile (· ≠ '=') with
    | [] => .flag name none
    | _::value => .flag name (some (String.ofList value))

def classify (arg : String) : Argument :=
  match arg.toList with
  | ['-','-'] => .stop
  | '-' :: '-' :: cs => splitFlag cs
  | '-' :: c :: cs => splitFlag (c :: cs)
  | _ => .operand

/-- Reads flags up to the first argument that is none. -/
def parse : Settings → List String → Except Refusal (Settings × List String)
  | s, [] => .ok (s,[])
  | s, arg::rest =>
    match classify arg with
    | .operand => .ok (s,arg :: rest)
    | .stop => .ok (s,rest)
    | .malformed => .error (.badForm arg)
    | .flag name value =>
      match Flag.ofName? name with
      | none => .error (if name = "help" ∨ name = "h" then .help else .undefined name)
      | some .output =>
        match value, rest with
        | some v, rest => parse { s with output := v } rest
        | none, v::rest => parse { s with output := v } rest
        | none, [] => .error (.needsArgument name)
      | some f =>
        match value with
        | none => parse (s.switch f true) rest
        | some v =>
          match boolean? v with
          | some b => parse (s.switch f b) rest
          | none => .error (.badBoolean v name)

def ofArguments (args : List String) : Except Refusal (Settings × String) :=
  match parse initial args with
  | .error r => .error r
  | .ok (s,[path]) => .ok (s,path)
  | .ok _ => .error .argumentCount

end Settings
end CMinusF
