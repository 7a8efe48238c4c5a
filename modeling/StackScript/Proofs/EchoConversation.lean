import StackScript.Proofs.EchoReply
import StackScript.Proofs.EchoServer
import StackScript.Proofs.ErrorChain
import StackScript.Proofs.InputLines
import StackScript.Proofs.OutputGrowth
import StackScript.Proofs.StandardWords
/-!
# A conversation with the echo server

A client runs the program that the server greets it with.  In each round the program writes a
prompt, reads a line, sends it to the server and runs the reply.  `Machine.conversing` is the client
between two rounds.  A round leads from one such state to the next one, for as long as there are
lines; then the program fails for want of one.
-/

namespace StackScript

namespace Machine

open Message (framed terminator)

variable {m : Machine} {values : List Value} {room : Nat}

theorem perform_read {line : String} {console : Console} (hstack : m.stack = ⟨values, room + 1⟩)
    (hread : m.console.readLine = (.ok line, console)) :
    Primitive.read.perform m =
      .settled (.done { m with stack := ⟨.text line :: values, room⟩, console }) := by
  let next : Machine := { m with console }
  have hnext : m.readLine = (.ok line, next) := by
    simp only [readLine, hread, next]
  have hanswer : next.answer (.text line) = .done (next.withStack ⟨.text line :: values, room⟩) :=
    answer_of_stack (m := next) hstack _
  simp only [Primitive.perform, performRead, hnext, hanswer]
  rfl

theorem perform_read_of_nil (hinput : m.console.input = []) :
    Primitive.read.perform m = .settled (.failed (.failure .inputClosed) m) := by
  simp [Primitive.perform, performRead, readLine, Console.readLine, hinput]

theorem perform_retrieve {text : String} {sent : List UInt8}
    (hstack : m.stack = ⟨.text text :: values, room⟩) (htext : terminator ∉ Utf8.encode text)
    (hconnection : m.connection = some { incoming := [], sent, peer := .echo }) :
    Primitive.retrieve.perform m =
      .enter (Echo.reply text) { m with
        stack := ⟨values, room + 1⟩
        connection := some { incoming := [], sent := sent ++ framed text, peer := .echo } } := by
  have hpop : m.stack.popText = (.ok text, ⟨values, room + 1⟩) := by
    rw [hstack]
    rfl
  let answered : Connection :=
    { incoming := framed (Echo.reply text), sent := sent ++ framed text, peer := .echo }
  have hsend : Connection.send { incoming := [], sent, peer := .echo } text =
      (.ok (), answered) := by
    rw [Connection.send_of_not_mem htext, List.nil_append]
    rfl
  have hreceive : answered.receive = (.ok (Echo.reply text), { answered with incoming := [] }) :=
    Connection.receive_text (Echo.terminator_not_mem_reply htext) (List.append_nil _).symm
  simp only [Primitive.perform, performRetrieve, taking, hpop, exchange, withStack, hconnection,
    hsend, hreceive]
  rfl

theorem perform_drop {v : Value} (hstack : m.stack = ⟨v :: values, room⟩) :
    (Primitive.operate .drop).perform m = .settled (.done (m.withStack ⟨values, room + 1⟩)) := by
  simp [Primitive.perform, Stack.apply, Stack.drop, hstack, Outcome.map]

end Machine

namespace Echo

open Message (framed)

/-- The text that the server greets its clients with. -/
def greeting : String :=
  "\nWelcome to the echo server.\nSay something and I will repeat it back to you!\n\n"

def promptBody : String := "\"?> \" write read retrieve"

def passBody : String := "drop prompt true"

def round (line : String) : String :=
  "?> Received: " ++ line ++ "\n"

theorem round_eq (line : String) : round line = "?> " ++ received line := by
  have hstart : "?> Received: " = "?> " ++ "Received: " := rfl
  simp only [round, received, hstart, String.append_assoc]

def dictionary : Dictionary :=
  { words := Word.scripted "prompt" promptBody :: Library.standard.words }

theorem tokens_welcome :
    ∃ l₁ l₂ l₃ l₄ l₅ l₆ l₇ last, (Cursor.ofSource (.ofText welcome)).tokens =
      ([⟨l₁, .text greeting⟩, ⟨l₂, .call "write"⟩, ⟨l₃, .textWord "prompt"⟩,
        ⟨l₄, .quotation promptBody⟩, ⟨l₅, .call "define"⟩, ⟨l₆, .quotation passBody⟩] ++
          ⟨l₇, .call "repeat"⟩ :: [last], none) := by
  refine ⟨⟨2, 1⟩, ⟨6, 3⟩, ⟨8, 1⟩, ⟨8, 9⟩, ⟨8, 37⟩, ⟨9, 1⟩, ⟨9, 20⟩, ⟨⟨10, 1⟩, .endOfInput⟩, ?_⟩
  delta welcome Source.ofText
  rewrite [Utf8.encode_append, Utf8.encode_append]
  decide +kernel

theorem tokens_promptBody :
    ∃ l₁ l₂ l₃ l₄ last, (Cursor.ofSource (.ofText promptBody)).tokens =
      ([⟨l₁, .text "?> "⟩, ⟨l₂, .call "write"⟩, ⟨l₃, .call "read"⟩, ⟨l₄, .call "retrieve"⟩] ++
        [⟨last, .endOfInput⟩], none) :=
  ⟨⟨1, 1⟩, ⟨1, 7⟩, ⟨1, 13⟩, ⟨1, 18⟩, ⟨1, 26⟩, rfl⟩

theorem tokens_passBody :
    ∃ l₁ l₂ l₃ last, (Cursor.ofSource (.ofText passBody)).tokens =
      ([⟨l₁, .call "drop"⟩, ⟨l₂, .call "prompt"⟩, ⟨l₃, .call "true"⟩] ++ [⟨last, .endOfInput⟩],
        none) :=
  ⟨⟨1, 1⟩, ⟨1, 6⟩, ⟨1, 13⟩, ⟨1, 17⟩, rfl⟩

end Echo

namespace Machine

open Message (framed terminator)

/-- A client that has had some lines answered and has others left to read. -/
def conversing (m : Machine) (sink : Sink) (answered left : List String) : Machine :=
  { m with
    console :=
      { input := left.flatMap typed
        sink := sink.add (answered.flatMap fun line => Utf8.encode (Echo.round line)) }
    connection := some { incoming := [], sent := answered.flatMap framed, peer := .echo } }

def prompted (m : Machine) : Machine :=
  { m with console := { m.console with sink := m.console.sink.add (Utf8.encode "?> ") } }

variable {m : Machine} {sink : Sink} {answered left : List String} {line : String}
  {values : List Value} {room : Nat}

theorem obeys_prompted {l l' : Location}
    (hdictionary : m.dictionary = Echo.dictionary) (hsink : m.console.sink.room = none)
    (hstack : m.stack = ⟨values, room + 1⟩) :
    m.Obeys [⟨l, .text "?> "⟩, ⟨l', .call "write"⟩] m.prompted := by
  have hwrite : Primitive.write.perform (m.withStack ⟨.text "?> " :: values, room⟩) =
      .settled (.done m.prompted) := by
    rw [prompted, hstack]
    exact perform_write rfl (Sink.write_of_unlimited hsink _)
  have hname : m.dictionary.action? "write" = Echo.dictionary.action? "write" := by
    rw [hdictionary]
  exact .literal rfl hstack (.call hname hwrite .nil)

def exchanged (m : Machine) (line : String) (rest sent : List UInt8) : Machine :=
  { m with
    console := { input := rest, sink := m.console.sink.add (Utf8.encode (Echo.received line)) }
    connection := some { incoming := [], sent := sent ++ framed line, peer := .echo } }

theorem obeys_exchanged {l l' : Location} {rest sent : List UInt8}
    (hdictionary : m.dictionary = Echo.dictionary) (hsink : m.console.sink.room = none)
    (hstack : m.stack = ⟨values, room + 1⟩) (hm : m.depth < m.maxNesting)
    (hline : IsLine line) (hzero : terminator ∉ Utf8.encode line)
    (hinput : m.console.input = typed line ++ rest)
    (hconnection : m.connection = some { incoming := [], sent, peer := .echo }) :
    m.Obeys [⟨l, .call "read"⟩, ⟨l', .call "retrieve"⟩] (m.exchanged line rest sent) := by
  have hname (name : String) : m.dictionary.action? name = Echo.dictionary.action? name := by
    rw [hdictionary]
  let heard : Machine := { m with
    stack := ⟨.text line :: values, room⟩, console := { m.console with input := rest } }
  have hheard : Primitive.read.perform m = .settled (.done heard) :=
    perform_read hstack (Console.readLine_typed hline hinput)
  let told : Machine := { heard with
    stack := ⟨values, room + 1⟩
    connection := some { incoming := [], sent := sent ++ framed line, peer := .echo } }
  have htold : Primitive.retrieve.perform heard = .enter (Echo.reply line) told :=
    perform_retrieve rfl hzero hconnection
  have hreply : told.SourceEnds (.ofText (Echo.reply line)) .done (m.exchanged line rest sent) := by
    rw [exchanged, hstack]
    exact sourceEnds_reply (m := told) (hname "write") rfl hm (Sink.write_of_unlimited hsink _)
  exact .call (hname "read") hheard (.enter (hname "retrieve") htold hreply .nil)

theorem obeys_round {l₁ l₂ l₃ l₄ : Location} {rest sent : List UInt8}
    (hdictionary : m.dictionary = Echo.dictionary) (hsink : m.console.sink.room = none)
    (hstack : m.stack = ⟨values, room + 1⟩) (hm : m.depth < m.maxNesting)
    (hline : IsLine line) (hzero : terminator ∉ Utf8.encode line)
    (hinput : m.console.input = typed line ++ rest)
    (hconnection : m.connection = some { incoming := [], sent, peer := .echo }) :
    m.Obeys [⟨l₁, .text "?> "⟩, ⟨l₂, .call "write"⟩, ⟨l₃, .call "read"⟩, ⟨l₄, .call "retrieve"⟩]
      (m.prompted.exchanged line rest sent) := by
  have hexchanged : m.prompted.Obeys [⟨l₃, .call "read"⟩, ⟨l₄, .call "retrieve"⟩]
      (m.prompted.exchanged line rest sent) :=
    obeys_exchanged hdictionary hsink hstack hm hline hzero hinput hconnection
  exact (obeys_prompted hdictionary hsink hstack).append hexchanged

def passing (m : Machine) (values : List Value) (room : Nat) (count : Int64) : Machine :=
  m.withStack ⟨.integer count :: values, room + 1⟩

def passed (m : Machine) (values : List Value) (room : Nat) : Machine :=
  m.withStack ⟨.boolean true :: values, room + 1⟩

section Rounds

variable (hdictionary : m.dictionary = Echo.dictionary) (hsink : sink.room = none)

include hdictionary hsink

theorem sourceEnds_prompt (hstack : m.stack = ⟨values, room + 1⟩)
    (hm : m.depth + 1 < m.maxNesting) (hline : IsLine line)
    (hzero : terminator ∉ Utf8.encode line) :
    (m.conversing sink answered (line :: left)).SourceEnds (.ofText Echo.promptBody) .done
      (m.conversing sink (answered ++ [line]) left) := by
  obtain ⟨l₁, l₂, l₃, l₄, last, htokens⟩ := Echo.tokens_promptBody
  let start := (m.conversing sink answered (line :: left)).opened
  let rest := left.flatMap typed
  let sent := answered.flatMap framed
  have hround : start.Obeys
      [⟨l₁, .text "?> "⟩, ⟨l₂, .call "write"⟩, ⟨l₃, .call "read"⟩, ⟨l₄, .call "retrieve"⟩]
      (start.prompted.exchanged line rest sent) :=
    obeys_round hdictionary hsink hstack hm hline hzero rfl rfl
  have hlast : m.conversing sink (answered ++ [line]) left =
      (start.prompted.exchanged line rest sent).closed := by
    simp [start, rest, sent, prompted, exchanged, conversing, opened, closed, Sink.add_add,
      Echo.round_eq]
  rw [hlast]
  exact sourceEnds_of_obeys (Nat.lt_of_succ_lt hm) htokens hround

theorem sourceEnds_prompt_of_nil (hstack : m.stack = ⟨values, room + 1⟩)
    (hm : m.depth < m.maxNesting) :
    ∃ e, e.cause = .failure .inputClosed ∧
      (m.conversing sink answered []).SourceEnds (.ofText Echo.promptBody) (.failed e)
        (m.conversing sink answered []).prompted := by
  obtain ⟨l₁, l₂, l₃, l₄, last, htokens⟩ := Echo.tokens_promptBody
  have hsplit : (Cursor.ofSource (.ofText Echo.promptBody)).tokens =
      ([⟨l₁, .text "?> "⟩, ⟨l₂, .call "write"⟩] ++
        ⟨l₃, .call "read"⟩ :: [⟨l₄, .call "retrieve"⟩, ⟨last, .endOfInput⟩], none) := htokens
  let start := (m.conversing sink answered []).opened
  have hprompted : start.Obeys [⟨l₁, .text "?> "⟩, ⟨l₂, .call "write"⟩] start.prompted :=
    obeys_prompted hdictionary hsink hstack
  have hname : m.dictionary.action? "read" = Echo.dictionary.action? "read" := by
    rw [hdictionary]
  have hclosed := ends_obey_failed (m := start.prompted) (l := l₃) hname (perform_read_of_nil rfl)
  exact ⟨_, rfl,
    sourceEnds_of_failed (m := m.conversing sink answered []) hm hsplit hprompted hclosed⟩

omit hsink in
theorem obeys_drop_count {l : Location} {count : Int64} :
    ((m.passing values room count).conversing sink answered left).opened.Obeys
      [⟨l, .call "drop"⟩]
      ((m.opened.withStack ⟨values, room + 2⟩).conversing sink answered left) := by
  have hname : m.dictionary.action? "drop" = Echo.dictionary.action? "drop" := by
    rw [hdictionary]
  have hdropped : (Primitive.operate .drop).perform
      ((m.passing values room count).conversing sink answered left).opened =
        .settled (.done ((m.opened.withStack ⟨values, room + 2⟩).conversing sink answered left)) :=
    perform_drop rfl
  exact .call hname hdropped .nil

theorem sourceEnds_pass {count : Int64} (hm : m.depth + 2 < m.maxNesting) (hline : IsLine line)
    (hzero : terminator ∉ Utf8.encode line) :
    ((m.passing values room count).conversing sink answered (line :: left)).SourceEnds
      (.ofText Echo.passBody) .done
      ((m.passed values room).conversing sink (answered ++ [line]) left) := by
  obtain ⟨l₁, l₂, l₃, last, htokens⟩ := Echo.tokens_passBody
  let start := (m.passing values room count).conversing sink answered (line :: left)
  let dropped := m.opened.withStack ⟨values, room + 2⟩
  have hname (name : String) : m.dictionary.action? name = Echo.dictionary.action? name := by
    rw [hdictionary]
  have hdropped : start.opened.Obeys [⟨l₁, .call "drop"⟩]
      (dropped.conversing sink answered (line :: left)) := obeys_drop_count hdictionary
  have hprompt : (dropped.conversing sink answered (line :: left)).SourceEnds
      (.ofText Echo.promptBody) .done (dropped.conversing sink (answered ++ [line]) left) :=
    sourceEnds_prompt hdictionary hsink rfl hm hline hzero
  have htrue := sourceEnds_true (m := dropped.conversing sink (answered ++ [line]) left)
    (Nat.lt_of_succ_lt hm) (hname "0") (hname "is-equal") rfl
  have hrest : (dropped.conversing sink answered (line :: left)).Obeys
      [⟨l₂, .call "prompt"⟩, ⟨l₃, .call "true"⟩]
      ((m.passed values room).conversing sink (answered ++ [line]) left).opened :=
    .enter (hname "prompt") rfl hprompt (.enter (hname "true") rfl htrue .nil)
  have hdepth : start.depth < start.maxNesting := by
    show m.depth < m.maxNesting
    omega
  exact sourceEnds_of_obeys hdepth htokens (hdropped.append hrest)

theorem sourceEnds_pass_of_nil {count : Int64} (hm : m.depth + 1 < m.maxNesting) :
    ∃ e, e.cause = .failure .inputClosed ∧
      ((m.passing values room count).conversing sink answered []).SourceEnds
        (.ofText Echo.passBody) (.failed e)
        ((m.withStack ⟨values, room + 2⟩).conversing sink answered []).prompted := by
  obtain ⟨l₁, l₂, l₃, last, htokens⟩ := Echo.tokens_passBody
  have hsplit : (Cursor.ofSource (.ofText Echo.passBody)).tokens =
      ([⟨l₁, .call "drop"⟩] ++
        ⟨l₂, .call "prompt"⟩ :: [⟨l₃, .call "true"⟩, ⟨last, .endOfInput⟩], none) := htokens
  let start := (m.passing values room count).conversing sink answered []
  let dropped := m.opened.withStack ⟨values, room + 2⟩
  have hdropped : start.opened.Obeys [⟨l₁, .call "drop"⟩] (dropped.conversing sink answered []) :=
    obeys_drop_count hdictionary
  obtain ⟨e, hcause, hprompt⟩ : ∃ e, e.cause = .failure .inputClosed ∧
      (dropped.conversing sink answered []).SourceEnds (.ofText Echo.promptBody) (.failed e)
        (dropped.conversing sink answered []).prompted :=
    sourceEnds_prompt_of_nil (m := dropped) hdictionary hsink rfl hm
  have hname : m.dictionary.action? "prompt" = Echo.dictionary.action? "prompt" := by
    rw [hdictionary]
  have hfails := ends_obey_enter_failed (m := dropped.conversing sink answered []) (l := l₂) hname
    rfl hprompt
  have hdepth : start.depth < start.maxNesting := Nat.lt_of_succ_lt hm
  exact ⟨e.within ⟨l₂, some "prompt"⟩, hcause, sourceEnds_of_failed hdepth hsplit hdropped hfails⟩

theorem exists_turns_conversing (hm : m.depth + 2 < m.maxNesting)
    (hleft : ∀ line ∈ left, IsLine line ∧ terminator ∉ Utf8.encode line) (values : List Value)
    (room : Nat) (answered : List String) (count : Int64) :
    ∃ last e, e.cause = .failure .inputClosed ∧
      (Effect.pass Echo.passBody count
        ((m.passing values room count).conversing sink answered left)).Turns last ∧
      last.Concludes (.failed e)
        ((m.withStack ⟨values, room + 2⟩).conversing sink (answered ++ left) []).prompted := by
  induction left generalizing answered count with
  | nil =>
    obtain ⟨e, hcause, hpass⟩ :=
      sourceEnds_pass_of_nil hdictionary hsink (Nat.lt_of_succ_lt hm)
    rw [List.append_nil]
    exact ⟨_, e, hcause, .refl _, by simp, hpass⟩
  | cons line left ih =>
    rw [List.forall_mem_cons] at hleft
    obtain ⟨⟨hline, hzero⟩, hleft⟩ := hleft
    obtain ⟨last, e, hcause, hturns, hconcludes⟩ := ih hleft (answered ++ [line]) (count + 1)
    rw [List.append_assoc, List.singleton_append] at hconcludes
    have hpass : ((m.passing values room count).conversing sink answered (line :: left)).SourceEnds
        (.ofText Echo.passBody) .done
        ((m.passed values room).conversing sink (answered ++ [line]) left) :=
      sourceEnds_pass hdictionary hsink hm hline hzero
    have hend : ((m.passed values room).conversing sink (answered ++ [line]) left).endPass
        Echo.passBody count = .pass Echo.passBody (count + 1)
          ((m.passing values room (count + 1)).conversing sink (answered ++ [line]) left) :=
      endPass_of_true rfl
    rw [← hend] at hturns
    exact ⟨last, e, hcause, .again hpass hturns, hconcludes⟩

end Rounds

theorem obeys_welcome {lines : List String} (l₁ l₂ l₃ l₄ l₅ l₆ : Location)
    (hdictionary : m.dictionary = Library.standard) (hsink : m.console.sink.room = none)
    (hstack : m.stack = ⟨values, room + 2⟩) (hinput : m.console.input = lines.flatMap typed)
    (hconnection : m.connection = some { incoming := [], peer := .echo }) :
    m.Obeys [⟨l₁, .text Echo.greeting⟩, ⟨l₂, .call "write"⟩, ⟨l₃, .textWord "prompt"⟩,
        ⟨l₄, .quotation Echo.promptBody⟩, ⟨l₅, .call "define"⟩, ⟨l₆, .quotation Echo.passBody⟩]
      ({ m with
          dictionary := Echo.dictionary
          stack := ⟨.quotation Echo.passBody :: values, room + 1⟩ }.conversing
        (m.console.sink.add (Utf8.encode Echo.greeting)) [] lines) := by
  have hname (name : String) : m.dictionary.action? name = Library.standard.action? name := by
    rw [hdictionary]
  let greeted : Machine := { m with
    console := { m.console with sink := m.console.sink.add (Utf8.encode Echo.greeting) } }
  have hgreeted : Primitive.write.perform
      (m.withStack ⟨.text Echo.greeting :: values, room + 1⟩) = .settled (.done greeted) := by
    have hsame : greeted = { greeted with stack := ⟨values, room + 2⟩ } := by
      rw [← hstack]
    rw [hsame]
    exact perform_write rfl (Sink.write_of_unlimited hsink _)
  let defined : Machine := { greeted with
    stack := ⟨values, room + 2⟩, dictionary := Echo.dictionary }
  have hdefine : m.dictionary.define (.scripted "prompt" Echo.promptBody) =
      .ok Echo.dictionary := by
    rw [hdictionary]
    exact Dictionary.define_of_find?_eq_none rfl
  have hdefined : Primitive.define.perform
      (greeted.withStack ⟨.quotation Echo.promptBody :: .text "prompt" :: values, room⟩) =
        .settled (.done defined) :=
    perform_define rfl hdefine
  have hlast : defined.withStack ⟨.quotation Echo.passBody :: values, room + 1⟩ =
      { m with
          dictionary := Echo.dictionary
          stack := ⟨.quotation Echo.passBody :: values, room + 1⟩ }.conversing
        (m.console.sink.add (Utf8.encode Echo.greeting)) [] lines := by
    simp [defined, greeted, withStack, conversing, hinput, hconnection, Sink.add]
  rw [← hlast]
  exact .literal rfl hstack (.call (hname "write") hgreeted (.literal rfl hstack (.literal rfl rfl
    (.call (hname "define") hdefined (.literal rfl rfl .nil)))))

theorem exists_sourceEnds_welcome {lines : List String}
    (hdictionary : m.dictionary = Library.standard) (hsink : m.console.sink.room = none)
    (hstack : m.stack = ⟨values, room + 2⟩) (hm : m.depth + 3 < m.maxNesting)
    (hinput : m.console.input = lines.flatMap typed)
    (hconnection : m.connection = some { incoming := [], peer := .echo })
    (hlines : ∀ line ∈ lines, IsLine line ∧ terminator ∉ Utf8.encode line) :
    ∃ e n, e.cause = .failure .inputClosed ∧ m.SourceEnds (.ofText Echo.welcome) (.failed e) n ∧
      n.console.sink.contents = m.console.sink.contents ++
        (Utf8.encode Echo.greeting ++ lines.flatMap (fun line => Utf8.encode (Echo.round line)) ++
          Utf8.encode "?> ") ∧
      n.connection = some { incoming := [], sent := lines.flatMap framed, peer := .echo } := by
  obtain ⟨l₁, l₂, l₃, l₄, l₅, l₆, l₇, last, htokens⟩ := Echo.tokens_welcome
  let greeted := m.console.sink.add (Utf8.encode Echo.greeting)
  let base : Machine := { m.opened with
    dictionary := Echo.dictionary, stack := ⟨.quotation Echo.passBody :: values, room + 1⟩ }
  have hobeys : m.opened.Obeys _ (base.conversing greeted [] lines) :=
    obeys_welcome l₁ l₂ l₃ l₄ l₅ l₆ hdictionary hsink hstack hinput hconnection
  have hcycle : Primitive.cycle.perform (base.conversing greeted [] lines) =
      .pass Echo.passBody 0 ((base.passing values room 0).conversing greeted [] lines) :=
    perform_cycle rfl
  have hdepth : base.depth + 2 < base.maxNesting := by
    show m.depth + 1 + 2 < m.maxNesting
    omega
  have hgreeted : greeted.room = none := hsink
  obtain ⟨turn, e, hcause, hturns, hconcludes⟩ :=
    exists_turns_conversing (m := base) rfl hgreeted hdepth hlines values room [] 0
  rw [List.nil_append] at hconcludes
  have hfails : ((base.conversing greeted [] lines).obey [] ⟨l₇, .call "repeat"⟩).Ends
      (.failed (e.within ⟨l₇, some "repeat"⟩))
      ((base.withStack ⟨values, room + 2⟩).conversing greeted lines []).prompted := by
    have hname : Echo.dictionary.action? "repeat" = some (.primitive .cycle) := rfl
    rw [obey, meaning_call hname, Action.perform, hcycle]
    exact ends_proceed_iff.mpr ⟨turn, .failed e, hturns, hconcludes, rfl⟩
  have hends := sourceEnds_of_failed (by omega) htokens hobeys hfails
  refine ⟨e.within ⟨l₇, some "repeat"⟩, _, hcause, hends, ?_, rfl⟩
  simp [prompted, conversing, closed, greeted, Sink.contents_add]

/-- A new client of the echo server runs the program that the server greets it with.  It writes the
greeting, then in each round a prompt and the line of that round as the server has sent it back, and
then one more prompt, after which it fails for want of a line.  What the server sends when it gets
no line, and what it sends more with each line, is what the client gets; by then the server has got
all lines and nothing else. -/
theorem echo_conversation {s : Settings} {lines : List String}
    (hcapacity : 2 ≤ (bare s).stack.capacity) (hnesting : 4 ≤ (bare s).maxNesting)
    (hlines : ∀ line ∈ lines, '\x00' ∉ line.toList ∧ '\n' ∉ line.toList ∧
      line.toList.getLast? ≠ some '\r')
    (hinput : s.console.input = lines.flatMap fun line => Utf8.encode (line ++ "\n"))
    (hsink : s.console.sink.room = none)
    (hconnection : s.connection = some Echo.greeted.receive.2) :
    (Echo.session { incoming := [] }).2.sent = Echo.greeted.incoming ∧
    (∀ before line, before ++ [line] <+: lines →
      (Echo.session { incoming := (before ++ [line]).flatMap framed }).2.sent =
        (Echo.session { incoming := before.flatMap framed }).2.sent ++ Peer.echo.answer line) ∧
    Echo.greeted.receive.1 = .ok Echo.welcome ∧
    ∃ client, (∃ fuel, full fuel s = (.done, client)) ∧
      ∃ fuel error last sent,
        client.executeText fuel Echo.welcome = (.failed error, last) ∧
        error.root = .ofCause (.failure .inputClosed) ∧
        last.console.sink.contents = s.console.sink.contents ++ Utf8.encode
          (Echo.greeting ++ String.join (lines.map fun line => "?> Received: " ++ line ++ "\n") ++
            "?> ") ∧
        last.connection = some { incoming := [], sent, peer := .echo } ∧
        sent = lines.flatMap framed ∧ Message.readAll sent = (lines.map Utf8.encode, []) ∧
        (Echo.session { incoming := sent }).1 = .ok () := by
  have hzero : ∀ line ∈ lines, terminator ∉ Utf8.encode line := by
    intro line hline
    rw [Message.terminator_mem_encode_iff]
    exact (hlines line hline).1
  have hread : ∀ line ∈ lines, IsLine line ∧ terminator ∉ Utf8.encode line := by
    intro line hline
    exact ⟨(hlines line hline).2, hzero line hline⟩
  have hanswers : ∀ before line, before ++ [line] <+: lines →
      (Echo.session { incoming := (before ++ [line]).flatMap framed }).2.sent =
        (Echo.session { incoming := before.flatMap framed }).2.sent ++ Peer.echo.answer line := by
    intro before line hbefore
    apply Echo.sent_session_append
    intro t ht
    exact hzero t (hbefore.subset ht)
  rw [Echo.receive_greeted] at hconnection ⊢
  have hnonzero : 0 < (bare s).maxNesting := by omega
  obtain ⟨room, hroom⟩ := Nat.exists_eq_add_of_le' hcapacity
  let client : Machine := { bare s with dictionary := Library.standard }
  have hstack : client.stack = ⟨[], room + 2⟩ := by
    rw [← hroom]
    exact stack_bare s
  have htyped : client.console.input = lines.flatMap typed := hinput
  obtain ⟨error, last, hcause, hends, hcontents, hlast⟩ :=
    exists_sourceEnds_welcome (m := client) rfl hsink hstack hnesting htyped hconnection hread
  obtain ⟨fuel, hfuel⟩ := (sourceEnds_iff_exists_execute (by simp)).mp hends
  refine ⟨Echo.sent_session_nil, hanswers, rfl, client, exists_full_eq hcapacity hnonzero, fuel,
    error, last, lines.flatMap framed, hfuel, ?_, ?_, hlast, rfl, Message.readAll_framed hzero, ?_⟩
  · rw [Error.root_eq, hcause]
  · rw [hcontents, Utf8.encode_append, Utf8.encode_append, Utf8.encode_join, List.flatMap_map]
    rfl
  · rw [Echo.session_framed hzero]

/-- A user who says two things, the second one in quotes and after a character of two bytes, to a
client with just enough room. -/
theorem conversation_of_two_lines :
    let lines := ["hello", "é \"hi\""]
    let s : Settings :=
      { capacity := 2
        maxNesting := 4
        console := { input := Utf8.encode "hello\né \"hi\"\n" }
        connection := some Echo.greeted.receive.2 }
    ∃ client, (∃ fuel, full fuel s = (.done, client)) ∧
      ∃ fuel error last, client.executeText fuel Echo.welcome = (.failed error, last) ∧
        error.root = .ofCause (.failure .inputClosed) ∧
        last.console.sink.contents = Utf8.encode (Echo.greeting ++
          "?> Received: hello\n?> Received: é \"hi\"\n" ++ "?> ") ∧
        ∃ c, last.connection = some c ∧ Message.readAll c.sent = (lines.map Utf8.encode, []) := by
  intro lines s
  have hlines : ∀ line ∈ lines, '\x00' ∉ line.toList ∧ '\n' ∉ line.toList ∧
      line.toList.getLast? ≠ some '\r' := by
    decide
  have hinput : s.console.input = lines.flatMap fun line => Utf8.encode (line ++ "\n") := by
    decide
  obtain ⟨-, -, -, client, hfull, fuel, error, last, sent, hends, hroot, hcontents, hlast, -, hread,
    -⟩ := echo_conversation (by decide) (by decide) hlines hinput rfl rfl
  refine ⟨client, hfull, fuel, error, last, hends, hroot, ?_, _, hlast, hread⟩
  have hempty : s.console.sink.contents = [] := rfl
  have hrounds : String.join (lines.map fun line => "?> Received: " ++ line ++ "\n") =
      "?> Received: hello\n?> Received: é \"hi\"\n" := by
    decide
  rw [hcontents, hempty, hrounds, List.nil_append]

end Machine

end StackScript
