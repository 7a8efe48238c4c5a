import StackScript.CommandLine.Arguments
import StackScript.Library
/-!
# Running the command line

What an invocation does in a given environment: the text it writes, the lines it logs and its exit
code.
-/

namespace StackScript.CommandLine

/-- What the program finds around it. -/
structure Environment where
  standardInput : List UInt8
  /-- Open a file of the given name for reading. -/
  openFile : String → Except Failure Source
  /-- Open a connection to the given address. -/
  openConnection : String → Except Failure Connection
  /-- A seed to use when none is asked for. -/
  entropy : UInt64
  clock : Timestamp := ⟨0, 0⟩

/-- What the program leaves behind. -/
structure Report where
  exit : Nat
  output : List UInt8 := []
  log : List String := []
  connection : Option Connection := none

def badArguments : Report := { exit := 2 }

/-- The text of an error that comes out of the program.  A failure that no word is blamed for is
named once more as the reason of the error. -/
def errorText (e : Error) : String :=
  match e.layers, e.cause with
  | [], .failure f => e.message ++ ": " ++ f.message
  | _, _ => e.message

/-- Whether an error comes from an input or a peer that has no more to say. -/
def isClosedInput (e : Error) : Bool :=
  match e.cause with
  | .failure f => f.kind = .unexpectedEnd
  | _ => false

def refused (text : String) : Report :=
  { exit := 1, log := ["ERROR " ++ text] }

def notStarted (e : Error) : Report := refused ("starting up: " ++ e.message)

def notOpened (name : String) (f : Failure) : Report :=
  refused ("opening " ++ name ++ ": " ++ f.message)

def noSuchFile : Failure := .device .other "No such file or directory (os error 2)"

/-- The report of a run that has ended in the given machine. -/
def Report.ofRun (m : Machine) : Verdict → Report
  | .done => { exit := 0, output := m.console.sink.contents, connection := m.connection }
  | .failed e =>
    { refused (errorText e) with
      output := m.console.sink.contents, connection := m.connection }
  | _ =>
    { refused "the interpreter thread panicked" with
      output := m.console.sink.contents, connection := m.connection }

def Invocation.settings (i : Invocation) (env : Environment) (connection : Option Connection) :
    Machine.Settings :=
  { capacity := i.capacity
    seed := i.seed.getD env.entropy
    console := { input := env.standardInput }
    connection
    clock := env.clock }

/-- Make a full machine, or report why there is none. -/
def Invocation.start (fuel : Nat) (i : Invocation) (env : Environment) : Except Report Machine :=
  match Machine.full fuel (i.settings env none) with
  | (.done, m) => .ok m
  | (.failed e, _) => .error (notStarted e)
  | (verdict, m) => .error (Report.ofRun m verdict)

/-- Open a script, or report why it cannot be opened.  Without a file it is the line input. -/
def Environment.openScript (env : Environment) (file : Option String) : Except Report Activation :=
  match file with
  | none => .ok { entry := .outer, cursor := .ofSource (.ofBytes []), shared := true }
  | some name =>
    match env.openFile name with
    | .error f => .error (notOpened name f)
    | .ok source => .ok { entry := .outer, cursor := .ofSource source }

/-- The start of a script, or the report of a program that does not get there. -/
def Invocation.startScript (fuel : Nat) (i : Invocation) (env : Environment)
    (file : Option String) : Except Report Progress := do
  let m ← i.start fuel env
  let a ← env.openScript file
  return m.start [] a

/-- The report of a client whose run has ended.  A client ends well when its input, or its server,
has no more to say. -/
def Report.ofClient (m : Machine) (verdict : Verdict) : Report :=
  match verdict with
  | .failed e =>
    if isClosedInput e then
      { exit := 0, output := m.console.sink.contents, log := ["INFO input closed"]
        connection := m.connection }
    else .ofRun m verdict
  | _ => .ofRun m verdict

/-- Run the first program that a server sends, with the server at hand for the rest of the run. -/
def runClient (fuel : Nat) (i : Invocation) (env : Environment) (address : String) : Report :=
  match env.openConnection address with
  | .error f =>
    .ofClient (Machine.bare (i.settings env none)) (.failed (.ofCause (.failure f)))
  | .ok connection =>
    match connection.receive with
    | (.error f, connection) =>
      .ofClient (Machine.bare (i.settings env (some connection)))
        (.failed (.ofCause (.failure f)))
    | (.ok code, connection) =>
      match Machine.full fuel (i.settings env (some connection)) with
      | (.done, m) =>
        let (verdict, m) := m.executeText fuel code
        .ofClient m verdict
      | (verdict, m) => .ofClient m verdict

/-- Do what an invocation asks for.  Servers go on for ever and have nothing to report. -/
def Invocation.run (fuel : Nat) (i : Invocation) (env : Environment) : Report :=
  match i.command with
  | .script file =>
    match i.startScript fuel env file with
    | .ok p =>
      let (verdict, m) := p.run fuel
      Report.ofRun m verdict
    | .error report => report
  | .words =>
    match i.start fuel env with
    | .ok m => { exit := 0, output := Utf8.encode m.dictionary.listing }
    | .error report => report
  | .connect address => runClient fuel i env address
  | .serve _ | .echoServer _ | .help => { exit := 0 }

def run (fuel : Nat) (args : List String) (env : Environment) : Report :=
  match parse args with
  | some i => i.run fuel env
  | none => badArguments

end StackScript.CommandLine
