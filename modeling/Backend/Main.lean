import Backend.Command.Run
import Backend.Document.File

/-! # The program

Reads the arguments and the input files, carries out the actions of a run, and reports
its error.
-/

namespace Backend

namespace Options

def usage : String :=
  "usage: backend [input] [-o output] [-c config] [--block-scope] [-m map] [-v]\n"

/-- Read the arguments after what has been read already. `named` tells whether the
input file has been given. -/
def parseFrom (o : Options) (named : Bool) : List String → Option Options
  | [] => some o
  | "-o" :: path :: rest => parseFrom { o with output := some path } named rest
  | "--output" :: path :: rest => parseFrom { o with output := some path } named rest
  | "-c" :: path :: rest => parseFrom { o with config := some path } named rest
  | "--config" :: path :: rest => parseFrom { o with config := some path } named rest
  | "-m" :: path :: rest => parseFrom { o with map := some path } named rest
  | "--map" :: path :: rest => parseFrom { o with map := some path } named rest
  | "--block-scope" :: rest => parseFrom { o with blockScope := true } named rest
  | "-v" :: rest => parseFrom { o with verbose := true } named rest
  | "--verbose" :: rest => parseFrom { o with verbose := true } named rest
  | arg :: rest =>
      if named || arg.startsWith "-" then none else parseFrom { o with input := arg } true rest

def parse (args : List String) : Option Options := parseFrom {} false args

end Options

/-- The text of a file, unless it cannot be opened. -/
def readText (path : String) : IO (Option String) := do
  try return some (← IO.FS.readFile path)
  catch _ => return none

/-- Carry out an action; the error is that a file cannot be created. -/
def Action.carryOut : Action → IO (Option Error)
  | .note text => do
      IO.eprint text
      return none
  | .print text => do
      IO.print text
      return none
  | .save path text => do
      try
        IO.FS.writeFile path text
        return none
      catch _ => return some (.fileCreate path)

def carryOutAll : List Action → IO (Option Error)
  | [] => return none
  | a :: rest => do
      match ← a.carryOut with
      | some e => return some e
      | none => carryOutAll rest

/-- Run the command, and give its exit code. -/
def Options.execute (o : Options) : IO UInt32 := do
  let config ← match o.config with
    | some path => readText path
    | none => pure none
  let tree ← readText o.input
  let (actions, result) :=
    o.transcript { config := config.map Config.ofText, tree := tree.map Program.ofText }
  let failure ← carryOutAll actions
  match failure, result with
  | some e, _ | none, .error (.error e) =>
      IO.eprint (e.diagnostic o.input)
      return 1
  | none, .error (.overflow x) =>
      IO.eprint (x.message ++ "\n")
      return 101
  | none, .ok _ => return 0

end Backend

def main (args : List String) : IO UInt32 := do
  match Backend.Options.parse args with
  | some o => o.execute
  | none =>
      IO.eprint Backend.Options.usage
      return 2
