import StackScript.Failure
import StackScript.Source.Location
/-!
# Cursors

A cursor walks over a source from its first byte to its last and knows the place it has reached.  It
may look at one byte before taking it.  A source can fail once, at its end; after that it is over.
-/

namespace StackScript

/-- Bytes to be read one by one, and the failure that stands after the last of them. -/
structure Source where
  bytes : List UInt8
  failure : Option Failure := none
deriving Repr, DecidableEq

namespace Source

/-- A source that does not fail. -/
def ofBytes (bytes : List UInt8) : Source := { bytes }

def ofText (text : String) : Source := ofBytes (Utf8.encode text)

/-- A source that fails after its last byte.  An interruption is tried again and never shows. -/
def failing (bytes : List UInt8) (failure : Failure) : Source :=
  { bytes, failure := if failure.kind = .interrupted then none else some failure }

/-- Read a byte, or find the source over. -/
def read (s : Source) : Except Failure (Option UInt8) × Source :=
  match s.bytes with
  | b :: rest => (.ok (some b), { s with bytes := rest })
  | [] =>
    match s.failure with
    | some f => (.error f, { bytes := [] })
    | none => (.ok none, s)

end Source

/-- A place in a source. -/
structure Cursor where
  source : Source
  /-- The byte that was looked at and is still to be taken. -/
  ahead : Option UInt8 := none
  location : Location := .start
deriving Repr, DecidableEq

namespace Cursor

/-- A cursor at the first byte. -/
def ofSource (source : Source) : Cursor := { source }

/-- The bytes that are still to be taken. -/
def pending (c : Cursor) : List UInt8 :=
  c.ahead.toList ++ c.source.bytes

def peek (c : Cursor) : Except Failure (Option UInt8) × Cursor :=
  match c.ahead with
  | some b => (.ok (some b), c)
  | none =>
    match c.source.read with
    | (.ok b, source) => (.ok b, { c with source, ahead := b })
    | (.error f, source) => (.error f, { c with source })

def next (c : Cursor) : Except Failure (Option UInt8) × Cursor :=
  match c.ahead with
  | some b => (.ok (some b), { c with ahead := none, location := c.location.after b })
  | none =>
    match c.source.read with
    | (.ok (some b), source) => (.ok (some b), { c with source, location := c.location.after b })
    | (.ok none, source) => (.ok none, { c with source })
    | (.error f, source) => (.error f, { c with source })

end Cursor

end StackScript
