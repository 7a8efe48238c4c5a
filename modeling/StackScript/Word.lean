import StackScript.Stack.Operation
/-!
# Words

A word is a name for something to do: a primitive of the language, or a text to be run.
-/

namespace StackScript

/-- What the primitives of the language do. -/
inductive Primitive where
  /-- An operation on the stack alone. -/
  | operate (op : Operation)
  /-- Run a quotation. -/
  | run
  /-- Run one of two quotations, as a boolean says. -/
  | choose
  /-- Run a quotation with a running count until it leaves false. -/
  | cycle
  /-- Give a quotation a name. -/
  | define
  /-- Make a random number. -/
  | random
  /-- Write a value to the output. -/
  | write
  /-- Read a line of input. -/
  | read
  /-- Tell the time. -/
  | now
  /-- Let time pass. -/
  | wait
  /-- Send a text to the peer and run the answer. -/
  | retrieve
deriving Repr, DecidableEq

/-- What calling a word does. -/
inductive Action where
  | primitive (p : Primitive)
  | script (body : String)
deriving Repr, DecidableEq

/-- Where a word comes from. -/
inductive Origin where
  | native
  | scripted
deriving Repr, DecidableEq

def Origin.name : Origin → String
  | .native => "native"
  | .scripted => "scripted"

/-- A named action and its documentation. -/
structure Word where
  name : String
  origin : Origin
  /-- What the word takes off the stack and leaves on it. -/
  signature : String := ""
  description : String := ""
  action : Action
deriving Repr, DecidableEq

namespace Word

def scripted (name body : String) : Word :=
  { name, origin := .scripted, description := "Defined by a script.", action := .script body }

def inspect (w : Word) : String :=
  let origin :=
    match w.origin with
    | .native => "Native"
    | .scripted => "Scripted"
  "WordInfo \x7b name: " ++ Text.quoted w.name ++ ", word_type: " ++ origin ++
    ", signature: " ++ Text.quoted w.signature ++ ", .. \x7d"

end Word

end StackScript
