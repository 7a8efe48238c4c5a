import StackScript.Machine.Step
/-!
# Line sessions

A session reads lines from the console of a machine and runs each of them.  A line that fails is
answered with its error, and the session goes on with the next one.
-/

namespace StackScript

/-- How a session ends. -/
inductive SessionEnd where
  /-- The input is used up. -/
  | closed
  | failed (f : Failure)
  | aborted (fault : Fault)
  /-- A line was given up before its end. -/
  | unfinished
deriving Repr, DecidableEq

namespace LineSession

def defaultPrompt : String := "> "

/-- Read and run at most `limit` lines. -/
def rounds (fuel : Nat) (prompt : String) : Nat → Machine → SessionEnd × Machine
  | 0, m => (.unfinished, m)
  | limit + 1, m =>
    match m.write prompt with
    | (.error f, m) => (.failed f, m)
    | (.ok (), m) =>
      match m.readLine with
      | (.error f, m) => (if f.kind = .unexpectedEnd then .closed else .failed f, m)
      | (.ok line, m) =>
        match m.executeText fuel line with
        | (.done, m) => rounds fuel prompt limit m
        | (.failed e, m) =>
          match m.write (e.message ++ "\n") with
          | (.error f, m) => (.failed f, m)
          | (.ok (), m) => rounds fuel prompt limit m
        | (.aborted fault, m) => (.aborted fault, m)
        | (.unfinished, m) => (.unfinished, m)

/-- Read and run all lines.  Every round takes at least one byte of input. -/
def run (fuel : Nat) (prompt : String) (m : Machine) : SessionEnd × Machine :=
  rounds fuel prompt (m.console.input.length + 1) m

end LineSession

end StackScript
