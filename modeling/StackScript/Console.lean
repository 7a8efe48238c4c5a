import StackScript.Failure
/-!
# The console

Where scripts read lines and write text.  Input is cut into lines after each line feed.  Output goes
to a sink, which may take only so many bytes in all.
-/

namespace StackScript

/-- An output. -/
structure Sink where
  /-- The bytes written so far, the last one first. -/
  written : List UInt8 := []
  /-- The number of bytes that may still be written; nothing when there is no limit. -/
  room : Option Nat := none
deriving Repr, DecidableEq

namespace Sink

/-- The bytes written so far, in order. -/
def contents (s : Sink) : List UInt8 := s.written.reverse

/-- Write some bytes.  When they do not fit, the part that fits is written. -/
def write (s : Sink) (bytes : List UInt8) : Except Failure Unit × Sink :=
  match s.room with
  | none => (.ok (), { s with written := bytes.reverse ++ s.written })
  | some room =>
    if bytes.length ≤ room then
      (.ok (), { written := bytes.reverse ++ s.written, room := some (room - bytes.length) })
    else
      (.error .outputFull, { written := (bytes.take room).reverse ++ s.written, room := some 0 })

end Sink

/-- A line input and an output. -/
structure Console where
  input : List UInt8 := []
  sink : Sink := {}
deriving Repr, DecidableEq

/-- The first line of some bytes, without its ending, and the bytes after it.  A line ends with a
line feed, before which one carriage return is dropped, or with the last byte. -/
def firstLine (bytes : List UInt8) : List UInt8 × List UInt8 :=
  let line := bytes.takeWhile (· ≠ 10)
  match bytes.dropWhile (· ≠ 10) with
  | [] => (line, [])
  | _ :: rest => (if line.getLast? = some 13 then line.dropLast else line, rest)

namespace Console

/-- Write a text. -/
def write (c : Console) (text : String) : Except Failure Unit × Console :=
  let (result, sink) := c.sink.write (Utf8.encode text)
  (result, { c with sink })

/-- Read a line.  Its bytes are taken also when they are not well-formed text. -/
def readLine (c : Console) : Except Failure String × Console :=
  if c.input.isEmpty then (.error .inputClosed, c)
  else
    let (line, rest) := firstLine c.input
    match Utf8.decode line with
    | .ok text => (.ok text, { c with input := rest })
    | .error _ => (.error .malformedLine, { c with input := rest })

end Console

end StackScript
