import StackScript.Decimal.Shortest
import StackScript.Text.Integer
import StackScript.Timestamp
/-!
# Values

Scripts work on six kinds of values.  A quotation is code kept as the text between its brackets; it
is cut into tokens each time it runs.
-/

namespace StackScript

/-- The kinds of values. -/
inductive Kind where
  | boolean
  | integer
  | float
  | text
  | quotation
  | timestamp
deriving Repr, DecidableEq

def Kind.name : Kind → String
  | .boolean => "boolean"
  | .integer => "integer"
  | .float => "float"
  | .text => "text"
  | .quotation => "quotation"
  | .timestamp => "timestamp"

/-- A value of a script. -/
inductive Value where
  | boolean (b : Bool)
  | integer (n : Int64)
  | float (x : Float)
  | text (t : String)
  | quotation (code : String)
  | timestamp (t : Timestamp)

namespace Value

def kind : Value → Kind
  | .boolean _ => .boolean
  | .integer _ => .integer
  | .float _ => .float
  | .text _ => .text
  | .quotation _ => .quotation
  | .timestamp _ => .timestamp

def booleanText (b : Bool) : String :=
  if b then "true" else "false"

/-- The text that shows a value.  A quotation keeps its brackets, so that it reads back as code. -/
def display : Value → String
  | .boolean b => booleanText b
  | .integer n => Integer.render n
  | .float x => Decimal.shortest x
  | .text t => t
  | .quotation code => "[" ++ code ++ "]"
  | .timestamp t => t.text

end Value

end StackScript
