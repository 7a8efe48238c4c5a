import StackScript.Echo.Program
/-!
# Connections

One end of a conversation in messages.  The other end is a peer: it has sent some bytes, and it may
answer what is sent to it.
-/

namespace StackScript

/-- How the other end answers. -/
inductive Peer where
  /-- It takes everything and answers nothing. -/
  | silent
  /-- It answers each message with a program that writes the message back. -/
  | echo
deriving Repr, DecidableEq

/-- The bytes that a peer answers a message with. -/
def Peer.answer (text : String) : Peer → List UInt8
  | .silent => []
  | .echo => Utf8.encode (Echo.reply text) ++ [Message.terminator]

/-- One end of a conversation. -/
structure Connection where
  /-- The bytes that the peer has sent and that are still to be read. -/
  incoming : List UInt8
  /-- All bytes sent to the peer. -/
  sent : List UInt8 := []
  peer : Peer := .silent
deriving Repr, DecidableEq

namespace Connection

def send (c : Connection) (text : String) : Except Failure Unit × Connection :=
  match Message.frame (Utf8.encode text) with
  | .ok bytes =>
    (.ok (), { c with sent := c.sent ++ bytes, incoming := c.incoming ++ c.peer.answer text })
  | .error f => (.error f, c)

def receive (c : Connection) : Except Failure String × Connection :=
  let (message, rest) := Message.read c.incoming
  let c := { c with incoming := rest }
  match message with
  | .ok bytes =>
    match Utf8.decode bytes with
    | .ok text => (.ok text, c)
    | .error defect => (.error (.malformedMessage defect), c)
  | .error f => (.error f, c)

end Connection

end StackScript
