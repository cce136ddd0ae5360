import Backend.Codegen.Program
import Backend.Command.Config
import Backend.Frame.Text

/-! # The command

A run of the command is a list of actions, up to where it ends. The actions are
carried out one after the other, and a file that cannot be created ends the run there.
What the input files hold and where files can be created is given from outside.
-/

namespace Backend

structure Options where
  /-- The tree file. -/
  input : String := "main.ast.yaml"
  /-- The file for the assembly; the standard output if there is none. -/
  output : Option String := none
  config : Option String := none
  /-- Whether locals end with their block, whatever the configuration says. -/
  blockScope : Bool := false
  /-- The file for the frame map. -/
  map : Option String := none
  verbose : Bool := false

/-- What the input files hold, unless they cannot be opened: what was asked for, or why
the file cannot be read as that. -/
structure Inputs where
  config : Option (Except String Config) := none
  tree : Option (Except String Program)

/-- What a file holds. -/
def opened {α : Type} (path : String) : Option (Except String α) → Except Error α
  | none => .error (.fileOpen path)
  | some (.error cause) => .error (.yaml cause)
  | some (.ok a) => .ok a

inductive Action where
  /-- Text for the standard error. -/
  | note (text : String)
  /-- Text for the standard output. -/
  | print (text : String)
  /-- A file to create. -/
  | save (path text : String)
deriving DecidableEq, Repr

/-- Actions in the order they are taken. A failure keeps those taken before it. -/
abbrev Script := EStateM Stop (List Action)

namespace Script

def act (a : Action) : Script Unit := modify (· ++ [a])

def fail {α : Type} (e : Error) : Script α := throw (.error e)

def ofExcept {α : Type} : Except Error α → Script α
  | .ok a => pure a
  | .error e => fail e

def checked {α : Type} : Except Overflow α → Script α
  | .ok a => pure a
  | .error o => throw (.overflow o)

end Script

namespace Options

/-- Announce a step. -/
def step (o : Options) (n : Nat) (text : String) : Script Unit :=
  if o.verbose then
    Script.act (.note (Colour.cyan.paint (toString n ++ ".") ++ " " ++ text ++ "\n"))
  else pure ()

/-- The scope that the configuration file and the options choose. -/
def scope (o : Options) (inputs : Inputs) : Except Error Scope := do
  let config ← match o.config with
    | none => pure {}
    | some path => opened path inputs.config
  return if o.blockScope then .block else config.scope

def program (o : Options) (inputs : Inputs) : Except Error Program := opened o.input inputs.tree

/-- Report where variables live. -/
def reportFrames (o : Options) (p : Program) : Script Unit :=
  if o.verbose || o.map.isSome then do
    let map ← Script.checked p.frameMap
    match o.map with
    | some path => Script.act (.save path map.toBlock)
    | none => pure ()
    if o.verbose then Script.act (.note map.toTable)
  else pure ()

/-- Write assembly where it is wanted. -/
def emit (o : Options) (code : Code) : Script Unit :=
  match o.output with
  | some path => Script.act (.save path code.render)
  | none => Script.act (.print code.render)

/-- Generate and write the assembly. The data section is written even when there is
no text section. -/
def assemble (o : Options) (p : Program) : Script Unit := do
  o.step 4 "Generate"
  match p.data 0 with
  | .error stop _ => throw stop
  | .ok (data, pool) labels =>
      match p.text pool labels with
      | .error (.overflow x) _ => throw (.overflow x)
      | .error (.error e) _ =>
          o.step 5 "Write output"
          o.emit data
          Script.fail e
      | .ok text _ =>
          o.step 5 "Write output"
          o.emit (data ++ text)
          if o.verbose then Script.act (.note (data.numbered ++ text.numbered))

def run (o : Options) (inputs : Inputs) : Script Unit := do
  o.step 1 "Load AST"
  let scope ← Script.ofExcept (o.scope inputs)
  let p ← Script.ofExcept (o.program inputs)
  o.step 2 "Resolve"
  let (p, result) := p.resolve scope
  Script.ofExcept result
  o.step 3 "Lay out frames"
  let p ← Script.checked p.layout
  o.reportFrames p
  o.assemble p

/-- The actions of a run, and how it ended. -/
def transcript (o : Options) (inputs : Inputs) : List Action × Except Stop Unit :=
  match o.run inputs [] with
  | .ok _ actions => (actions, .ok ())
  | .error stop actions => (actions, .error stop)

end Options

/-- What a run left behind. -/
structure Report where
  status : Nat := 0
  stdout : String := ""
  stderr : String := ""
  /-- The files that were written, in order, with what was written to them. -/
  files : List (String × String) := []
deriving DecidableEq, Repr

namespace Report

/-- Carry out actions up to the first file that cannot be created. -/
def perform (creatable : String → Bool) : List Action → Report → Report × Option Error
  | [], r => (r, none)
  | .note text :: rest, r => perform creatable rest { r with stderr := r.stderr ++ text }
  | .print text :: rest, r => perform creatable rest { r with stdout := r.stdout ++ text }
  | .save path text :: rest, r =>
      if creatable path then perform creatable rest { r with files := r.files ++ [(path, text)] }
      else (r, some (.fileCreate path))

/-- End with an error in a file. -/
def fail (r : Report) (e : Error) (file : String) : Report :=
  { r with status := 1, stderr := r.stderr ++ e.diagnostic file }

end Report

/-- Run the command, where files can be created at the given paths. -/
def Options.report (o : Options) (inputs : Inputs) (creatable : String → Bool) :
    Except Overflow Report :=
  let (actions, result) := o.transcript inputs
  match Report.perform creatable actions {} with
  | (r, some e) => .ok (r.fail e o.input)
  | (r, none) =>
      match result with
      | .ok _ => .ok r
      | .error (.error e) => .ok (r.fail e o.input)
      | .error (.overflow x) => .error x

end Backend
