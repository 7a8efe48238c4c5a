import StackScript.Failure
import StackScript.Source.Location
import StackScript.Text.Quoted
import StackScript.Value
/-!
# Errors

An error is a cause together with the calls it came up through.  Every call on the way adds a layer
on the outside: the place of the call and, for a word, its name.
-/

namespace StackScript

/-- What makes a source impossible to read. -/
inductive Problem where
  /-- The source ends before the byte that closes a quotation or a comment. -/
  | unclosed (mark : UInt8)
  /-- A byte that starts no token. -/
  | unexpected (byte : UInt8)
deriving Repr, DecidableEq

def Problem.message : Problem → String
  | .unclosed mark => "missing closing character: " ++ Text.quotedByte mark
  | .unexpected byte => "unexpected character " ++ Text.quotedByte byte

/-- What went wrong. -/
inductive Cause where
  | malformed (problem : Problem) (location : Location)
  | overflow
  | underflow
  /-- An operand is of a kind that the operation never takes. -/
  | invalidType (found : Kind)
  /-- A value is not of the one kind that is needed. -/
  | unexpectedType (expected found : Kind)
  /-- Both operands may be taken, but not together. -/
  | typeMismatch (a b : Kind)
  | unknownWord (name : String)
  | alreadyDefined (name : String)
  | tooDeep (limit : Nat)
  | randomBound (bound : Int64)
  | notConnected
  | failure (f : Failure)
deriving DecidableEq

def Cause.message : Cause → String
  | .malformed problem location => problem.message ++ " (" ++ location.text ++ ")"
  | .overflow => "stack overflow"
  | .underflow => "stack underflow"
  | .invalidType found => "invalid type " ++ found.name
  | .unexpectedType expected found => "got " ++ found.name ++ " instead of " ++ expected.name
  | .typeMismatch a b => "type mismatch between " ++ a.name ++ " A and " ++ b.name ++ " B"
  | .unknownWord name => "unknown word \"" ++ name ++ "\""
  | .alreadyDefined name => "already defined word: \"" ++ name ++ "\""
  | .tooDeep limit => s!"recursion too deep, more than {limit} nested levels"
  | .randomBound bound => "random bound must be greater than zero, got " ++ Integer.render bound
  | .notConnected => "no server connection configured"
  | .failure f => "I/O error: " ++ f.message

/-- An integer division that has no result.  It is no error of the script: it ends the whole run. -/
inductive Fault where
  | division
  | remainder
deriving Repr, DecidableEq

def Fault.message : Fault → String
  | .division => "attempt to divide by zero"
  | .remainder => "attempt to calculate the remainder with a divisor of zero"

/-- How an action on a state ends.  The state is the one that the action leaves behind, also when it
did not succeed. -/
inductive Outcome (σ : Type) where
  | done (state : σ)
  | failed (cause : Cause) (state : σ)
  | aborted (fault : Fault) (state : σ)

def Outcome.state {σ : Type} : Outcome σ → σ
  | .done s => s
  | .failed _ s => s
  | .aborted _ s => s

def Outcome.map {σ τ : Type} (f : σ → τ) : Outcome σ → Outcome τ
  | .done s => .done (f s)
  | .failed cause s => .failed cause (f s)
  | .aborted fault s => .aborted fault (f s)

/-- One call that an error came up through. -/
structure Layer where
  location : Location
  /-- The word that was called; nothing for a literal or a name without a meaning. -/
  word : Option String
deriving Repr, DecidableEq

/-- The text of a layer, which stands in front of what it encloses. -/
def Layer.text (l : Layer) : String :=
  match l.word with
  | some name => "(at " ++ l.location.text ++ ") " ++ name ++ ": "
  | none => "(at " ++ l.location.text ++ ") "

/-- An error: its layers, the outermost first, and its cause. -/
structure Error where
  layers : List Layer := []
  cause : Cause
deriving DecidableEq

namespace Error

def ofCause (cause : Cause) : Error := { cause }

def within (e : Error) (layer : Layer) : Error :=
  { e with layers := layer :: e.layers }

/-- What stands inside the outermost layer of an error, if it has one. -/
def enclosed? (e : Error) : Option Error :=
  match e.layers with
  | [] => none
  | _ :: inner => some { e with layers := inner }

theorem length_layers_of_enclosed? {e inner : Error} (h : e.enclosed? = some inner) :
    inner.layers.length < e.layers.length := by
  unfold enclosed? at h
  split at h
  · cases h
  · rename_i hlayers
    cases h
    rw [hlayers]
    exact Nat.lt_succ_self _

/-- Follow the layers of an error inwards to the failure that started it all. -/
def root (e : Error) : Error :=
  match h : e.enclosed? with
  | none => e
  | some inner =>
    have := length_layers_of_enclosed? h
    inner.root
termination_by e.layers.length

def message (e : Error) : String :=
  String.join (e.layers.map Layer.text) ++ e.cause.message

end Error

end StackScript
