import StackScript.Failure
/-!
# Messages

Peers exchange messages, each of which is followed by a zero byte.  A message cannot hold that byte.
-/

namespace StackScript.Message

/-- The byte that ends every message. -/
def terminator : UInt8 := 0

def frame (message : List UInt8) : Except Failure (List UInt8) :=
  if message.contains terminator then .error .zeroByte
  else .ok (message ++ [terminator])

/-- Take the first message off some bytes.  Bytes that end before their message does are dropped. -/
def read (bytes : List UInt8) : Except Failure (List UInt8) × List UInt8 :=
  match bytes.dropWhile (· ≠ terminator) with
  | [] => (.error .messageCut, [])
  | _ :: rest => (.ok (bytes.takeWhile (· ≠ terminator)), rest)

/-- All messages that some bytes carry, and the bytes after the last of them. -/
def readAll : List UInt8 → List (List UInt8) × List UInt8
  | [] => ([], [])
  | b :: rest =>
    match readAll rest with
    | (messages, tail) =>
      if b = terminator then ([] :: messages, tail)
      else
        match messages with
        | [] => ([], b :: tail)
        | message :: more => ((b :: message) :: more, tail)

def escapeChar (c : Char) : List Char :=
  if c = '\\' then ['\\', '\\']
  else if c = '"' then ['\\', '"']
  else [c]

/-- A text as it is written between the quotes of a text literal. -/
def escape (text : String) : String :=
  String.ofList (text.toList.flatMap escapeChar)

end StackScript.Message
