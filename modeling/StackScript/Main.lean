import StackScript.CommandLine.Report
import Std.Time.DateTime.Timestamp
/-!
# The program

The outer layer: it feeds a run with standard input line by line, as the run asks for it, writes
what the run writes, and lets time pass.  There is no network here, so the commands that need one
fail.
-/

namespace StackScript.CommandLine

/-- More steps than a run can take in a lifetime. -/
def lifetime : Nat := Nat.pow 2 62

partial def nextLine (stdin : IO.FS.Stream) (line : List UInt8) : IO (List UInt8) := do
  let bytes ← stdin.read 1
  match bytes.toList with
  | [] => return line.reverse
  | b :: _ => if b = 10 then return (b :: line).reverse else nextLine stdin (b :: line)

/-- Whether the next step of a run looks further than the input that is there: it reads its text
from the input, or it calls a word that reads a line. -/
def wantsInput (m : Machine) (calls : List Activation) : Bool :=
  match calls with
  | [] => false
  | a :: _ =>
    let (result, after, m') := m.token a
    let isCut := a.shared && after.cursor.ahead.isNone && m'.console.input.isEmpty
    let reads :=
      match result with
      | .ok { form := .call name, .. } =>
        (m.dictionary.find? name).any (·.action = .primitive .read)
      | _ => false
    isCut || (reads && !m'.console.input.contains 10)

/-- Add lines of standard input until the next step of a run has enough.  Nothing is asked for once
standard input is over. -/
partial def feed (stdin : IO.FS.Stream) (isOver : Bool) (m : Machine) (calls : List Activation) :
    IO (Bool × Machine) := do
  if isOver || !wantsInput m calls then return (isOver, m)
  let line ← nextLine stdin []
  if line.isEmpty then return (true, m)
  feed stdin false { m with console := { m.console with input := m.console.input ++ line } } calls

def currentTime : IO Timestamp := do
  let now ← Std.Time.Timestamp.now
  let nanoseconds := now.toNanosecondsSinceUnixEpoch.val
  return ⟨nanoseconds / 1000000000, (nanoseconds % 1000000000).toNat⟩

def flush (stdout : IO.FS.Stream) (m : Machine) : IO Machine := do
  if m.console.sink.written.isEmpty then return m
  stdout.write ⟨m.console.sink.contents.toArray⟩
  stdout.flush
  return { m with console := { m.console with sink := { m.console.sink with written := [] } } }

/-- Go on with a run to its end. -/
partial def drive (stdin stdout : IO.FS.Stream) (isOver : Bool) :
    Progress → IO (Verdict × Machine)
  | .halted verdict m => do return (verdict, ← flush stdout m)
  | .raising e m calls => drive stdin stdout isOver (m.raise e calls)
  | .running m calls => do
    let m ← flush stdout m
    let (isOver, m) ← feed stdin isOver m calls
    let now ← currentTime
    let next := { m with clock := now }.step calls
    let waited := next.machine.clock.toNanoseconds - now.toNanoseconds
    if 0 < waited then IO.sleep (UInt32.ofNat (waited.toNat / 1000000))
    drive stdin stdout isOver next

def publish (report : Report) : IO UInt32 := do
  let stdout ← IO.getStdout
  stdout.write ⟨report.output.toArray⟩
  stdout.flush
  for line in report.log do
    IO.eprintln line
  return UInt32.ofNat report.exit

def freshSeed : IO UInt64 := do
  let bytes ← IO.getRandomBytes 8
  return bytes.toList.foldl (fun seed b => seed * 256 + b.toUInt64) 0

def openFailure : IO.Error → Failure
  | .noFileOrDirectory _ _ _ => noSuchFile
  | e => .device .other (toString e)

def readScript (name : String) : IO (Except Failure Source) := do
  try
    let bytes ← IO.FS.readBinFile name
    return .ok (.ofBytes bytes.toList)
  catch e => return .error (openFailure e)

def noNetwork : Failure := .device .other "there is no network"

/-- What the program finds before it reads any input.  It opens no other file than the given one. -/
def surroundings (file : Option String) : IO Environment := do
  let script ← file.mapM readScript
  return {
    standardInput := []
    openFile := fun _ => script.getD (.error noSuchFile)
    openConnection := fun _ => .error noNetwork
    entropy := ← freshSeed }

def runInteractively (i : Invocation) (file : Option String) : IO UInt32 := do
  match i.startScript lifetime (← surroundings file) file with
  | .ok p =>
    let (verdict, m) ← drive (← IO.getStdin) (← IO.getStdout) false p
    publish (Report.ofRun m verdict)
  | .error report => publish report

def perform (args : List String) : IO UInt32 := do
  match parse args with
  | none => publish badArguments
  | some i =>
    match i.command with
    | .script file => runInteractively i file
    | .words => publish (i.run lifetime (← surroundings none))
    | .connect address | .serve address | .echoServer address =>
      publish (refused (address ++ ": " ++ noNetwork.message))
    | .help => publish { exit := 0 }

end StackScript.CommandLine

def main (args : List String) : IO UInt32 :=
  StackScript.CommandLine.perform args
