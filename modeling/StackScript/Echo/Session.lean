import StackScript.Connection
/-!
# The echo server

The server greets its client and then answers every message until the client stops sending.
-/

namespace StackScript.Echo

/-- Answer at most `limit` messages. -/
def answer : Nat → Connection → Except Failure Unit × Connection
  | 0, c => (.ok (), c)
  | limit + 1, c =>
    match c.receive with
    | (.error f, c) => (if f.kind = .unexpectedEnd then .ok () else .error f, c)
    | (.ok message, c) =>
      match c.send (reply message) with
      | (.error f, c) => (.error f, c)
      | (.ok (), c) => answer limit c

/-- Greet the client and answer its messages, of which there are fewer than bytes to read. -/
def session (c : Connection) : Except Failure Unit × Connection :=
  match c.send welcome with
  | (.error f, c) => (.error f, c)
  | (.ok (), c) => answer (c.incoming.length + 1) c

/-- The client's end of a conversation with a new server, which has greeted the client. -/
def greeted : Connection :=
  { incoming := Utf8.encode welcome ++ [Message.terminator], peer := .echo }

/-- The messages that a client gets which sends the given bytes and then stops sending. -/
def conversation (incoming : List UInt8) : List (List UInt8) :=
  let (_, c) := session { incoming }
  (Message.readAll c.sent).1

end StackScript.Echo
