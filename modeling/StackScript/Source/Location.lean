/-!
# Locations

A location is a place in a source, counted in lines and bytes from one.  It is the place of the next
byte to be taken.
-/

namespace StackScript

/-- A place in a source. -/
structure Location where
  line : Nat
  column : Nat
deriving Repr, DecidableEq

namespace Location

def start : Location := ⟨1, 1⟩

/-- The place after a byte: the next column, or the next line after a line feed. -/
def after (l : Location) (b : UInt8) : Location :=
  if b = 10 then ⟨l.line + 1, 1⟩ else ⟨l.line, l.column + 1⟩

def afterAll (l : Location) (bytes : List UInt8) : Location :=
  bytes.foldl after l

@[simp] theorem afterAll_nil (l : Location) : l.afterAll [] = l := rfl

@[simp] theorem afterAll_cons (l : Location) (b : UInt8) (bs : List UInt8) :
    l.afterAll (b :: bs) = (l.after b).afterAll bs := rfl

theorem afterAll_append (l : Location) (as bs : List UInt8) :
    l.afterAll (as ++ bs) = (l.afterAll as).afterAll bs := by
  simp [afterAll]

def text (l : Location) : String :=
  s!"{l.line}:{l.column}"

end Location

end StackScript
