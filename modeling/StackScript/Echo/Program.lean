import StackScript.Message
/-!
# Programs of the echo server

The echo server talks to its clients in programs: one to greet them, and one to answer each message.
-/

namespace StackScript.Echo

/-- The program that every new client gets.  It greets the user and then, over and over, reads a
line, sends it to the server and runs the answer. -/
def welcome : String :=
  "\n\"\nWelcome to the echo server.\n" ++
  "Say something and I will repeat it back to you!\n\n\" write\n\n" ++
  "*prompt [\"?> \" write read retrieve] define\n[drop prompt true] repeat\n"

/-- The program that answers a message: it writes the message back. -/
def reply (message : String) : String :=
  "\"Received: " ++ Message.escape message ++ "\\n\" write"

end StackScript.Echo
