/-! The files a program can reach, and what goes wrong when a path is opened. -/
namespace CMinusF

inductive FileError where
  | missing | isDirectory | notDirectory | nameTooLong | invalid | noSpace
deriving DecidableEq, Repr

def FileError.text : FileError → String
  | .missing => "no such file or directory"
  | .isDirectory => "is a directory"
  | .notDirectory => "not a directory"
  | .nameTooLong => "file name too long"
  | .invalid => "invalid argument"
  | .noSpace => "no space left on device"

/-- A failed attempt to open a path, to read from it or to write to it. -/
structure AccessError where
  verb : String
  path : String
  error : FileError
deriving DecidableEq, Repr

def AccessError.message (e : AccessError) : String := s!"{e.verb} {e.path}: {e.error.text}"

abbrev Steps := List String

/-- Files that hold no text of their own. -/
inductive Device where
  /-- It is empty and takes everything. -/
  | null
  /-- It takes nothing. -/
  | full
  | input | output | errors
deriving DecidableEq, Repr

def Device.places : List (Steps × Device) := [
  (["dev","null"],.null),(["dev","full"],.full),
  (["dev","stdin"],.input),(["dev","stdout"],.output),(["dev","stderr"],.errors),
  (["dev","fd","0"],.input),(["dev","fd","1"],.output),(["dev","fd","2"],.errors)]

/-- Texts by where they are; a directory is there because something is in it. -/
structure Files where
  entries : List (Steps × String)
deriving DecidableEq, Repr

namespace Files

def home : Steps := ["tmp","work"]

def rootNames : List String :=
  ["bin","dev","etc","home","lib","media","mnt","opt","proc","root","run",
  "sbin","srv","sys","tmp","usr","var"]

inductive Node where
  | file (text : String)
  | device (d : Device)
  | directory
  | nothing
deriving DecidableEq, Repr

def isDirectory (fs : Files) (p : Steps) : Bool :=
  p.isPrefixOf home || rootNames.any (fun name => p = [name]) ||
    Device.places.any (fun e => p.isPrefixOf e.1) || fs.entries.any fun e => p.isPrefixOf e.1

def node (fs : Files) (p : Steps) : Node :=
  match fs.entries.lookup p, Device.places.lookup p with
  | some text, _ => .file text
  | none, some d => .device d
  | none, none => if fs.isDirectory p then .directory else .nothing

def nameLimit : Nat := 255

def pathLimit : Nat := 4096

/-- Follows steps, each of which must start from a directory; above the root is the root itself. -/
def follow (fs : Files) : Steps → List String → Except FileError Steps
  | p, [] => .ok p
  | p, step::rest =>
    match fs.node p with
    | .nothing => .error .missing
    | .directory =>
      if step = "." then follow fs p rest
      else if step = ".." then follow fs p.dropLast rest
      else if nameLimit < step.utf8ByteSize then .error .nameTooLong
      else follow fs (p ++ [step]) rest
    | _ => .error .notDirectory

/-- The steps a path spells; slashes in a row count as one. -/
def steps (path : String) : List String := (path.splitOn "/").filter (· ≠ "")

def start (path : String) : Steps := if path.startsWith "/" then [] else home

/-- The paths that are refused unseen. -/
def refusal? (path : String) : Option FileError :=
  if path.toList.contains '\x00' then some .invalid
  else if path = "" then some .missing
  else if pathLimit ≤ path.utf8ByteSize then some .nameTooLong
  else none

/-- A path that ends in a slash names a directory. -/
def endsInSlash (path : String) : Bool := path.endsWith "/"

def source (fs : Files) (path : String) : Except FileError Steps :=
  match refusal? path with
  | some e => .error e
  | none => fs.follow (start path) (steps path ++ if endsInSlash path then ["."] else [])

def target (fs : Files) (path : String) : Except FileError Steps :=
  match refusal? path with
  | some e => .error e
  | none =>
    if endsInSlash path then do
      let _ ← fs.follow (start path) ((steps path).dropLast ++ ["."])
      .error .isDirectory
    else do
      let p ← fs.follow (start path) (steps path)
      if fs.node p = .directory then .error .isDirectory else .ok p

def put (fs : Files) (p : Steps) (text : String) : Files :=
  ⟨(p,text) :: fs.entries.filter (·.1 ≠ p)⟩

/-- Files by their paths from the directory that a program runs in. -/
def ofList (l : List (String × String)) : Files :=
  ⟨l.map fun (path,text) => (home ++ steps path,text)⟩

/-- The files below the directory that a program runs in. -/
def toList (fs : Files) : List (String × String) :=
  (fs.entries.filter fun e => home.isPrefixOf e.1).map fun (p,text) =>
    ("/".intercalate (p.drop home.length),text)

end Files

/-- What a program finds when it starts, and leaves when it ends. -/
structure Surroundings where
  files : Files
  input : String
  output : String
  errors : String
deriving DecidableEq, Repr

namespace Surroundings

def print (s : Surroundings) (text : String) : Surroundings := { s with output := s.output ++ text }

def complain (s : Surroundings) (text : String) : Surroundings :=
  { s with errors := s.errors ++ text }

/-- Reads a whole file. What is read of the input is gone. -/
def read (s : Surroundings) (path : String) : Except AccessError (String × Surroundings) :=
  match s.files.source path with
  | .error e => .error ⟨"open",path,e⟩
  | .ok p =>
    match s.files.node p with
    | .file text => .ok (text,s)
    | .device .input => .ok (s.input,{ s with input := "" })
    | .device _ => .ok ("",s)
    | .directory => .error ⟨"read",path,.isDirectory⟩
    | .nothing => .error ⟨"open",path,.missing⟩

def write (s : Surroundings) (path text : String) : Except AccessError Surroundings :=
  match s.files.target path with
  | .error e => .error ⟨"open",path,e⟩
  | .ok p =>
    match s.files.node p with
    | .device .full => .error ⟨"write",path,.noSpace⟩
    | .device .output => .ok (s.print text)
    | .device .errors => .ok (s.complain text)
    | .device _ => .ok s
    | _ => .ok { s with files := s.files.put p text }

end Surroundings
end CMinusF
