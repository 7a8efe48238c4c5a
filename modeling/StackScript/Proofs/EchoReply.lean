import StackScript.Proofs.TextLiteral
import StackScript.Proofs.TokenEffect
/-!
# Replies of the echo server

A reply carries a message inside a program.  Whatever the message is, it stays a text there: a
machine that runs the reply writes the message back and does nothing else
(`Machine.escaped_text_stays_text`).
-/

namespace StackScript

namespace Sink

variable {s : Sink} {bytes : List UInt8}

/-- Whether all of the bytes will be written. -/
def Accepts (s : Sink) (bytes : List UInt8) : Prop :=
  ∀ room ∈ s.room, bytes.length ≤ room

theorem exists_write_eq_ok (h : s.Accepts bytes) :
    ∃ sink, s.write bytes = (.ok (), sink) ∧ sink.contents = s.contents ++ bytes := by
  rcases hroom : s.room with _ | room
  · refine ⟨_, by rw [write, hroom], ?_⟩
    simp [contents]
  · have hfits : bytes.length ≤ room := h room hroom
    refine ⟨_, by rw [write, hroom]; exact if_pos hfits, ?_⟩
    simp [contents]

end Sink

namespace Echo

def received (message : String) : String :=
  "Received: " ++ message ++ "\n"

theorem escaped_received (message : String) :
    Escaped (Utf8.encode ("Received: " ++ Message.escape message ++ "\\n"))
      (Utf8.encode (received message)) := by
  have hstart : Escaped (Utf8.encode "Received: ") (Utf8.encode "Received: ") :=
    escaped_escape "Received: "
  have hend : Escaped (Utf8.encode "\\n") (Utf8.encode "\n") := .lineFeed .nil
  simp only [received, Utf8.encode_append]
  exact (hstart.append (escaped_escape message)).append hend

theorem tokens_reply (message : String) :
    ∃ place last, (Cursor.ofSource (.ofText (reply message))).tokens =
      ([⟨.start, .text (received message)⟩, ⟨place, .call "write"⟩] ++ [⟨last, .endOfInput⟩],
        none) := by
  have htokens := Cursor.tokens_quoted (escaped_received message) (.ofText " write")
  have hrest : (Cursor.ofSource (.ofText " write")).tokens =
      ([⟨⟨1, 2⟩, .call "write"⟩, ⟨⟨1, 7⟩, .endOfInput⟩], none) := rfl
  have hsource : Source.ofText (reply message) =
      { Source.ofText " write" with
        bytes := Mark.quote :: Utf8.encode ("Received: " ++ Message.escape message ++ "\\n") ++
          Mark.quote :: (Source.ofText " write").bytes } := by
    have hopen : Utf8.encode "\"Received: " = Mark.quote :: Utf8.encode "Received: " := rfl
    have hclose : Utf8.encode "\\n\" write" =
        Utf8.encode "\\n" ++ Mark.quote :: Utf8.encode " write" := rfl
    simp [Source.ofText, Source.ofBytes, reply, hopen, hclose]
  rw [hrest, Utf8.decodeLossy_encode] at htokens
  rw [hsource]
  exact ⟨_, _, htokens⟩

end Echo

namespace Machine

variable {m : Machine} {values : List Value} {room : Nat}

theorem perform_write {text : String} {sink : Sink}
    (hstack : m.stack = ⟨.text text :: values, room⟩)
    (hsink : m.console.sink.write (Utf8.encode text) = (.ok (), sink)) :
    Primitive.write.perform m =
      .settled (.done { m with
        stack := ⟨values, room + 1⟩, console := { m.console with sink } }) := by
  simp [Primitive.perform, performWrite, taking, Stack.popValue, Stack.pop, hstack, writeValue,
    writtenText?, write, Console.write, withStack, hsink]

theorem sourceEnds_reply (hname : m.dictionary.action? "write" = some (.primitive .write))
    (hstack : m.stack = ⟨values, room + 1⟩)
    (hm : m.depth < m.maxNesting) {message : String} {sink : Sink}
    (hsink : m.console.sink.write (Utf8.encode (Echo.received message)) = (.ok (), sink)) :
    m.SourceEnds (.ofText (Echo.reply message)) .done
      { m with console := { m.console with sink } } := by
  obtain ⟨place, last, htokens⟩ := Echo.tokens_reply message
  let text : Value := .text (Echo.received message)
  have hwrite : Primitive.write.perform (m.opened.withStack ⟨text :: values, room⟩) =
      .settled (.done { m.opened with
        stack := ⟨values, room + 1⟩, console := { m.console with sink } }) :=
    perform_write rfl hsink
  have hobeys : m.opened.Obeys
      [⟨.start, .text (Echo.received message)⟩, ⟨place, .call "write"⟩] _ :=
    .literal rfl hstack (.call hname hwrite .nil)
  have hends := sourceEnds_of_obeys hm htokens hobeys
  rw [← hstack] at hends
  exact hends

/-- A text between quotes, escaped, is one token at the start of any source, and the rest of the
source is read as if it stood alone.  So a reply to a message, run in any state that a machine can
get into, writes the message and leaves everything else as it was. -/
theorem escaped_text_stays_text :
    (∀ (text : String) (rest : Source),
      (Cursor.ofSource { rest with
          bytes := Utf8.encode ("\"" ++ Message.escape text ++ "\"") ++ rest.bytes }).tokens =
        (⟨⟨1, 1⟩, .text text⟩ ::
            (Cursor.ofSource rest).tokens.1.map (Token.relocate
              (Location.behind (Utf8.encode ("\"" ++ Message.escape text ++ "\""))).shift),
          (Cursor.ofSource rest).tokens.2.map (Cause.relocate
            (Location.behind (Utf8.encode ("\"" ++ Message.escape text ++ "\""))).shift))) ∧
    ∀ (s : Settings) (p : Progress) (message : String), p.Reachable s →
      0 < p.machine.stack.room → p.machine.depth < p.machine.maxNesting →
      p.machine.console.sink.Accepts (Utf8.encode ("Received: " ++ message ++ "\n")) →
      ∃ fuel sink,
        p.machine.executeText fuel ("\"Received: " ++ Message.escape message ++ "\\n\" write") =
          (.done, { p.machine with console := { p.machine.console with sink } }) ∧
        sink.contents =
          p.machine.console.sink.contents ++ Utf8.encode ("Received: " ++ message ++ "\n") := by
  constructor
  · intro text rest
    have htokens := Cursor.tokens_quoted (escaped_escape text) rest
    have hquote : Utf8.encode "\"" = [Mark.quote] := rfl
    rw [Utf8.decodeLossy_encode] at htokens
    simpa [hquote, Location.start] using htokens
  · intro s p message hreachable hroom hdepth haccepts
    have hname : p.machine.dictionary.action? "write" = some (.primitive .write) :=
      hreachable.action?_of_natives rfl
    obtain ⟨sink, hsink, hcontents⟩ := Sink.exists_write_eq_ok haccepts
    obtain ⟨room, hroom'⟩ := Nat.exists_eq_add_of_lt hroom
    have hstack : p.machine.stack = ⟨p.machine.stack.values, room + 1⟩ := by
      rw [Nat.zero_add] at hroom'
      rw [← hroom']
    have hends := sourceEnds_reply hname hstack hdepth hsink
    obtain ⟨fuel, hfuel⟩ := (sourceEnds_iff_exists_execute (by simp)).mp hends
    exact ⟨fuel, sink, hfuel, hcontents⟩

/-- A message that tries to end the text and to drop it, where one place on the stack and just
enough output are left. -/
theorem reply_to_quote_and_drop :
    let m := Machine.bare { capacity := 1, console := { sink := { room := some 17 } } }
    m.stack.room = 1 ∧ (Utf8.encode "Received: \" drop\n").length = 17 ∧
      ∃ fuel sink,
        m.executeText fuel ("\"Received: " ++ Message.escape "\" drop" ++ "\\n\" write") =
          (.done, { m with console := { m.console with sink } }) ∧
        sink.contents = Utf8.encode "Received: \" drop\n" := by
  intro m
  have hlength : (Utf8.encode "Received: \" drop\n").length = 17 := by decide
  have haccepts : m.console.sink.Accepts (Utf8.encode "Received: \" drop\n") := by
    intro room hroom
    cases hroom
    exact Nat.le_of_eq hlength
  have hreachable : Progress.Reachable _ (.halted .done m) := ⟨m, .bare, Relation.ReflTransGen.refl⟩
  exact ⟨rfl, hlength,
    escaped_text_stays_text.2 _ _ "\" drop" hreachable Nat.zero_lt_one (by decide) haccepts⟩

end Machine

end StackScript
