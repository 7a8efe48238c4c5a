import StackScript.Text.Utf8
import StackScript.Word
/-!
# Dictionaries

A dictionary holds words in the order they were defined.  Words are only ever added.  A name that
already has a meaning keeps it.
-/

namespace StackScript

/-- The known words, the newest first. -/
structure Dictionary where
  words : List Word := []
deriving Repr, DecidableEq

namespace Dictionary

def size (d : Dictionary) : Nat := d.words.length

/-- The words in the order they were defined. -/
def toList (d : Dictionary) : List Word := d.words.reverse

/-- The newest word of a name. -/
def find? (d : Dictionary) (name : String) : Option Word :=
  d.words.find? (·.name == name)

/-- Add a word, unless its name has a meaning. -/
def define (d : Dictionary) (w : Word) : Except Cause Dictionary :=
  match d.find? w.name with
  | some _ => .error (.alreadyDefined w.name)
  | none => .ok { words := w :: d.words }

theorem define_of_find?_eq_none {d : Dictionary} {w : Word} (h : d.find? w.name = none) :
    d.define w = .ok { words := w :: d.words } := by
  simp [define, h]

theorem define_of_find?_eq_some {d : Dictionary} {v w : Word} (h : d.find? w.name = some v) :
    d.define w = .error (.alreadyDefined w.name) := by
  simp [define, h]

def ofList (words : List Word) : Dictionary := { words := words.reverse }

def column (width : Nat) (text : String) : String :=
  text ++ String.ofList (List.replicate (width - text.length) ' ')

/-- A line of a listing whose names take up `width` characters. -/
def line (width : Nat) (w : Word) : String :=
  column width w.name ++ "  " ++ column 8 w.origin.name ++ "  " ++ column 24 w.signature ++
    "  --  " ++ w.description ++ "\n"

/-- The listing of all words.  The column of names is as wide as the longest name has bytes. -/
def listing (d : Dictionary) : String :=
  let width := d.toList.foldl (fun width w => max width (Utf8.encode w.name).length) 0
  s!"{d.size} words defined.\n\n" ++ String.join (d.toList.map (line width))

end Dictionary

end StackScript
