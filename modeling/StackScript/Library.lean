import StackScript.Machine.Step
/-!
# The words of a new machine

The native words stand for the primitives.  The standard words are defined on top of them by a
script that every full machine runs before anything else.
-/

namespace StackScript.Library

def native (name : String) (p : Primitive) (description signature : String) : Word :=
  { name, origin := .native, signature, description, action := .primitive p }

def controlWords : List Word :=
  [ native "do" .run "Execute a quotation." "quotation -- ...",
    native "if" .choose
      "Execute the first quotation if the boolean is true, the second otherwise."
      "bool then else -- ...",
    native "repeat" .cycle
      "Push the iteration count and run the quotation until it leaves false on the stack."
      "quotation -- ...",
    native "define" .define
      "Define a new word that executes the quotation.  Existing names can't be redefined."
      "name quotation -- " ]

def stackWords : List Word :=
  [ native "drop" (.operate .drop) "Discard the top value on the stack." "value -- ",
    native "pick" (.operate .pick)
      "Copy the value n places below the top of the stack.  0 is the top." "... n -- ... value",
    native "swap" (.operate .swap) "Swap the top 2 values on the stack." "a b -- b a",
    native "rot" (.operate .rot) "Move the third value on the stack to the top." "a b c -- b c a" ]

def calculationWords : List Word :=
  [ native "is-equal" (.operate (.pair .isEqual))
      "Are the two values equal?  Both must be of the same type." "a b -- bool",
    native "is-greater" (.operate (.pair .isGreater)) "Is a greater than b?" "a b -- bool",
    native "is-smaller" (.operate (.pair .isSmaller)) "Is a smaller than b?" "a b -- bool",
    native "add" (.operate (.pair .add)) "Add two numbers or join two texts." "a b -- result",
    native "subtract" (.operate (.pair .subtract)) "Subtract b from a." "a b -- result",
    native "multiply" (.operate (.pair .multiply)) "Multiply two numbers." "a b -- result",
    native "divide" (.operate (.pair .divide)) "Divide a by b.  Integer division truncates."
      "a b -- result",
    native "modulo" (.operate (.pair .modulo)) "The remainder of dividing a by b."
      "a b -- result",
    native "invert" (.operate (.convert .invert)) "Boolean not." "bool -- !bool",
    native "random" .random "A random integer from 0 up to, but not including, the bound."
      "bound -- integer" ]

def conversionWords : List Word :=
  [ native "to-integer" (.operate (.convert .toInteger))
      "Convert to an integer.  Unparsable text leaves an error description instead."
      "value -- integer-or-text",
    native "to-text" (.operate (.convert .toText))
      "Convert a number to text.  Floats get 5 decimal digits." "value -- text" ]

def consoleWords : List Word :=
  [ native "print" .write "Write a boolean, number or text to the output." "value -- ",
    native "write" .write "Write a boolean, number or text to the output." "value -- ",
    native "ask" .read "Read a line of input, without its line ending." " -- text",
    native "read" .read "Read a line of input, without its line ending." " -- text" ]

def timeWords : List Word :=
  [ native "now" .now "The current point in time." " -- timestamp",
    native "wait" .wait "Sleep for integer milliseconds, float seconds, or until a timestamp."
      "duration -- " ]

def peerWords : List Word :=
  [ native "retrieve" .retrieve "Send the text to the server and run the code it answers with."
      "text -- ..." ]

def nativeWords : List Word :=
  controlWords ++ stackWords ++ calculationWords ++ conversionWords ++ consoleWords ++ timeWords ++
    peerWords

def natives : Dictionary := Dictionary.ofList nativeWords

/-- The script that defines the standard words. -/
def standardWords : String :=
  String.join
    [ "( Standard words, built from the native ones. )\n\n",
      "( Stack )\n",
      "*dup [0 pick] define\n",
      "*over [1 pick] define\n",
      "*nip [swap drop] define\n",
      "*tuck [swap 1 pick] define\n\n",
      "( Logic )\n",
      "*true [0 0 is-equal] define\n",
      "*false [true invert] define\n",
      "*not [invert] define\n",
      "*and [[] [drop false] if] define\n",
      "*or [[drop true] [] if] define\n\n",
      "( Comparison )\n",
      "*is-not-equal [is-equal invert] define\n",
      "*is-greater-or-equal [is-smaller invert] define\n",
      "*is-smaller-or-equal [is-greater invert] define\n\n",
      "( Arithmetic )\n",
      "*negate [0 swap subtract] define\n",
      "*increment [1 add] define\n",
      "*decrement [1 subtract] define\n",
      "*square [dup multiply] define\n",
      "*random-between [over subtract random add] define\n\n",
      "( Control )\n",
      "*when [[] if] define\n",
      "*unless [[] swap if] define\n\n",
      "( Output )\n",
      "*println [print \"\\n\" print] define\n" ]

end StackScript.Library

namespace StackScript.Machine

/-- A machine that knows the native words only. -/
def bare (s : Settings) : Machine := ofSettings s Library.natives

/-- A full machine: one that has run the script of the standard words.  The verdict is that of the
script, which needs two places on the stack. -/
def full (fuel : Nat) (s : Settings) : Verdict × Machine :=
  (bare s).executeText fuel Library.standardWords

end StackScript.Machine
