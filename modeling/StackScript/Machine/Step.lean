import StackScript.Machine.Primitive
import StackScript.Source.Token
/-!
# Running scripts

A script runs inside a machine as a stack of activations, one for each text that is being run.
`step` takes one token of the innermost text and does what it says; `raise` takes an error out of
the innermost text; `Progress.run` repeats them.  Nothing else is recursive, so what holds of every
step holds of every run.

* `Activation`: a text that is being run, how far it has come, and how it was entered.
* `Progress`: a machine in the middle of a run, or at its end.
* `Machine.execute`: run a whole source.
-/

namespace StackScript

/-- How a text came to be run. -/
inductive Entry where
  /-- It was asked for from outside. -/
  | outer
  /-- A word runs it, called as the layer says. -/
  | call (layer : Layer)
  /-- A word runs it again and again, called as the layer says; this is the pass with the given
  count. -/
  | pass (layer : Layer) (code : String) (count : Int64)
deriving Repr, DecidableEq

/-- An error as it comes out of a text that was entered in the given way. -/
def Entry.enclose (e : Error) : Entry → Error
  | .outer => e
  | .call layer => e.within layer
  | .pass layer _ _ => e.within layer

/-- A text that is being run. -/
structure Activation where
  entry : Entry
  cursor : Cursor
  /-- Whether the text is read from the line input of the machine, as the script goes on. -/
  shared : Bool := false
deriving Repr, DecidableEq

/-- How a run ends. -/
inductive Verdict where
  | done
  | failed (error : Error)
  | aborted (fault : Fault)
  /-- The run was given up before its end. -/
  | unfinished
deriving DecidableEq

/-- A run in its activations, the innermost first, or its end. -/
inductive Progress where
  | running (machine : Machine) (calls : List Activation)
  /-- An error is on its way out of the activations. -/
  | raising (error : Error) (machine : Machine) (calls : List Activation)
  | halted (verdict : Verdict) (machine : Machine)

def Progress.machine : Progress → Machine
  | .running m _ => m
  | .raising _ m _ => m
  | .halted _ m => m

namespace Machine

/-- Start to run a text, unless too many are running. -/
def start (m : Machine) (calls : List Activation) (a : Activation) : Progress :=
  if m.maxNesting ≤ m.depth then
    .raising (a.entry.enclose (.ofCause (.tooDeep m.maxNesting))) m calls
  else
    .running m.opened (a :: calls)

def enter (m : Machine) (calls : List Activation) (entry : Entry) (code : String) : Progress :=
  m.start calls { entry, cursor := .ofSource (.ofText code) }

/-- Go on with the effect of something that was called as the layer says. -/
def proceed (calls : List Activation) (layer : Layer) : Effect → Progress
  | .settled (.done m) => .running m calls
  | .settled (.failed cause m) => .raising ((Error.ofCause cause).within layer) m calls
  | .settled (.aborted fault m) => .halted (.aborted fault) m
  | .enter code m => m.enter calls (.call layer) code
  | .pass code count m => m.enter calls (.pass layer code count) code

def number (m : Machine) (name : String) : Outcome Machine :=
  match Integer.parse name with
  | .ok n => m.answer (.integer n)
  | .error _ => .failed (.unknownWord name) m

/-- What a token does, and the layer that it adds to its failures. -/
def meaning (m : Machine) (t : Token) : Layer × Effect :=
  match t.form with
  | .endOfInput => (⟨t.location, none⟩, .settled (.done m))
  | .comment _ => (⟨t.location, none⟩, .settled (.done m))
  | .quotation code => (⟨t.location, none⟩, .settled (m.answer (.quotation code)))
  | .text text => (⟨t.location, none⟩, .settled (m.answer (.text text)))
  | .textWord text => (⟨t.location, none⟩, .settled (m.answer (.text text)))
  | .call name =>
    match m.dictionary.find? name with
    | some w => (⟨t.location, some name⟩, w.action.perform m)
    | none => (⟨t.location, none⟩, .settled (m.number name))

def obey (m : Machine) (calls : List Activation) (t : Token) : Progress :=
  proceed calls (m.meaning t).1 (m.meaning t).2

/-- Go on after the end of a text.  A repeated text is run again if it left true. -/
def leave (m : Machine) (calls : List Activation) : Entry → Progress
  | .outer => .running m calls
  | .call _ => .running m calls
  | .pass layer code count => proceed calls layer (m.endPass code count)

/-- Read the next token of a text.  A shared text takes its bytes from the line input. -/
def token (m : Machine) (a : Activation) : Except Cause Token × Activation × Machine :=
  if a.shared then
    let (result, cursor) := { a.cursor with source := .ofBytes m.console.input }.token
    (result, { a with cursor },
      { m with console := { m.console with input := cursor.source.bytes } })
  else
    let (result, cursor) := a.cursor.token
    (result, { a with cursor }, m)

/-- Take one token of the innermost text and do what it says. -/
def step (m : Machine) : List Activation → Progress
  | [] => .halted .done m
  | a :: calls =>
    match m.token a with
    | (.error cause, a, m) => .raising (.ofCause cause) m (a :: calls)
    | (.ok t, a, m) =>
      if t.form = .endOfInput then m.closed.leave calls a.entry else m.obey (a :: calls) t

def raise (m : Machine) (e : Error) : List Activation → Progress
  | [] => .halted (.failed e) m
  | a :: calls => .raising (a.entry.enclose e) m.closed calls

end Machine

namespace Progress

/-- Do one step of a run that is going on. -/
def next : Progress → Progress
  | .running m calls => m.step calls
  | .raising e m calls => m.raise e calls
  | .halted verdict m => .halted verdict m

/-- Go on for at most the given number of steps. -/
def run : Nat → Progress → Verdict × Machine
  | _, .halted verdict m => (verdict, m)
  | 0, p => (.unfinished, p.machine)
  | fuel + 1, p => run fuel p.next

@[simp] theorem run_halted (fuel : Nat) (verdict : Verdict) (m : Machine) :
    run fuel (.halted verdict m) = (verdict, m) := by
  cases fuel <;> rfl

@[simp] theorem run_succ (fuel : Nat) (p : Progress) : run (fuel + 1) p = run fuel p.next := by
  cases p <;> simp [run, next]

theorem run_add_of_ne_unfinished {fuel : Nat} {p : Progress} (h : (run fuel p).1 ≠ .unfinished)
    (more : Nat) : run (fuel + more) p = run fuel p := by
  induction fuel generalizing p with
  | zero =>
    cases p with
    | running m calls => exact absurd rfl h
    | raising e m calls => exact absurd rfl h
    | halted verdict m => simp
  | succ fuel ih =>
    rw [Nat.succ_add, run_succ, run_succ]
    rw [run_succ] at h
    exact ih h

end Progress

namespace Machine

/-- Run a text from outside. -/
def evaluate (fuel : Nat) (m : Machine) (a : Activation) : Verdict × Machine :=
  (m.start [] a).run fuel

/-- Run a source that is read from nowhere else. -/
def execute (fuel : Nat) (m : Machine) (source : Source) : Verdict × Machine :=
  m.evaluate fuel { entry := .outer, cursor := .ofSource source }

def executeText (fuel : Nat) (m : Machine) (text : String) : Verdict × Machine :=
  m.execute fuel (.ofText text)

def executeInput (fuel : Nat) (m : Machine) : Verdict × Machine :=
  m.evaluate fuel { entry := .outer, cursor := .ofSource (.ofBytes []), shared := true }

/-- Call a word from outside, as if at the given place. -/
def call (fuel : Nat) (m : Machine) (location : Location) (w : Word) : Verdict × Machine :=
  (proceed [] ⟨location, some w.name⟩ (w.action.perform m)).run fuel

end Machine

end StackScript
