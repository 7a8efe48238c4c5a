import StackScript.Text.Utf8
/-!
# Failures of input and output

What can go wrong when the program talks to the outside: to its line input, its output, a peer, or a
source that cannot be read to its end.
-/

namespace StackScript

/-- The kinds of failures. -/
inductive FailureKind where
  | unexpectedEnd
  | invalidData
  | invalidInput
  | writeZero
  | timedOut
  | interrupted
  | other
deriving Repr, DecidableEq

/-- A failure of input or output. -/
inductive Failure where
  /-- A line was asked for after the last one. -/
  | inputClosed
  /-- A line is not well-formed text. -/
  | malformedLine
  /-- The output takes no more bytes. -/
  | outputFull
  /-- A message to be sent holds the byte that ends messages. -/
  | zeroByte
  /-- The peer stopped in the middle of a message. -/
  | messageCut
  /-- A message is not well-formed text. -/
  | malformedMessage (defect : Utf8.Defect)
  /-- A device reports a failure of its own. -/
  | device (kind : FailureKind) (message : String)
deriving Repr, DecidableEq

namespace Failure

def kind : Failure → FailureKind
  | .inputClosed => .unexpectedEnd
  | .malformedLine => .invalidData
  | .outputFull => .writeZero
  | .zeroByte => .invalidInput
  | .messageCut => .unexpectedEnd
  | .malformedMessage _ => .invalidData
  | .device kind _ => kind

def message : Failure → String
  | .inputClosed => "input closed"
  | .malformedLine => "stream did not contain valid UTF-8"
  | .outputFull => "failed to write whole buffer"
  | .zeroByte => "message contains a zero byte"
  | .messageCut => "connection closed before the end of the message"
  | .malformedMessage defect => defect.message
  | .device _ message => message

end Failure

end StackScript
