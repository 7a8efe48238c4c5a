import StackScript.Proofs.EchoServer
import StackScript.Proofs.PrimitiveCall
/-!
# Requests and replies

A machine that talks to a peer sends texts by calls of `retrieve` only, and with each text that it
sends it takes the next message of the peer and runs it.  Replies may make such calls themselves,
and any of them may fail: requests and replies stay in step (`Progress.retrieve_in_lockstep`).
-/

namespace StackScript

namespace Message

def unread (count : Nat) (bytes : List UInt8) : List UInt8 :=
  (fun bytes => (read bytes).2)^[count] bytes

/-- The text of the message with the given number, counted from zero. -/
def reply (bytes : List UInt8) (number : Nat) : Except Failure String :=
  match (readAll bytes).1[number]? with
  | none => .error .messageCut
  | some message =>
    match Utf8.decode message with
    | .ok text => .ok text
    | .error defect => .error (.malformedMessage defect)

theorem unread_succ (count : Nat) (bytes : List UInt8) :
    unread (count + 1) bytes = (read (unread count bytes)).2 :=
  Function.iterate_succ_apply' _ _ _

private theorem unread_nil (count : Nat) : unread count [] = [] := by
  induction count with
  | zero => rfl
  | succ count ih =>
    rw [unread_succ, ih]
    rfl

theorem read_unread (count : Nat) (bytes : List UInt8) :
    read (unread count bytes) =
      (match (readAll bytes).1[count]? with
        | none => .error .messageCut
        | some message => .ok message,
      unread (count + 1) bytes) := by
  refine Prod.ext ?_ (unread_succ count bytes).symm
  induction count generalizing bytes with
  | zero =>
    induction bytes using message_induction with
    | tail bytes h => simp [unread, read_of_not_mem h, readAll_of_not_mem h]
    | message message rest h _ => simp [unread, read_append h, readAll_append h]
  | succ count ih =>
    have hunread : unread (count + 1) bytes = unread count (read bytes).2 := rfl
    rw [hunread]
    induction bytes using message_induction with
    | tail bytes h =>
      rw [read_of_not_mem h, readAll_of_not_mem h, unread_nil]
      rfl
    | message message rest h _ =>
      rw [read_append h, readAll_append h, ih]
      rfl

end Message

namespace Connection

open Message (framed terminator)

variable {c : Connection} {text : String}

/-- The connection when some texts have been sent and a message has been taken for each of them. -/
def after (c : Connection) (texts : List String) : Connection :=
  { c with
    incoming := Message.unread texts.length c.incoming
    sent := c.sent ++ texts.flatMap framed }

theorem after_nil (c : Connection) : c.after [] = c := by
  simp [after, Message.unread]

theorem receive_unread {bytes : List UInt8} {count : Nat}
    (h : c.incoming = Message.unread count bytes) :
    c.receive =
      (Message.reply bytes count, { c with incoming := Message.unread (count + 1) bytes }) := by
  simp only [receive, h, Message.read_unread, Message.reply]
  cases (Message.readAll bytes).1[count]? with
  | none => rfl
  | some message =>
    dsimp only
    cases Utf8.decode message <;> rfl

theorem send_of_mem (h : terminator ∈ Utf8.encode text) :
    c.send text = (.error .zeroByte, c) := by
  rw [send, Message.frame_of_mem h]

theorem send_after (hpeer : c.peer = .silent) (texts : List String)
    (h : terminator ∉ Utf8.encode text) :
    (c.after texts).send text =
      (.ok (), { c.after texts with sent := c.sent ++ (texts ++ [text]).flatMap framed }) := by
  rw [send_of_not_mem h]
  simp [after, hpeer, Peer.answer]

end Connection

namespace Machine

open Message (terminator)

variable {m : Machine} {c : Connection} {text : String}

theorem exchange_of_mem (hc : m.connection = some c) (h : terminator ∈ Utf8.encode text) :
    m.exchange text = .settled (.failed (.failure .zeroByte) m) := by
  have hm : { m with connection := some c } = m := by
    rw [← hc]
  simp only [exchange, hc, Connection.send_of_mem h, hm]

theorem exchange_after {texts : List String} (hc : m.connection = some (c.after texts))
    (hpeer : c.peer = .silent) (h : terminator ∉ Utf8.encode text) :
    m.exchange text =
      match Message.reply c.incoming texts.length with
      | .ok code => .enter code { m with connection := some (c.after (texts ++ [text])) }
      | .error f =>
        .settled (.failed (.failure f)
          { m with connection := some (c.after (texts ++ [text])) }) := by
  let told : Connection :=
    { c.after texts with sent := c.sent ++ (texts ++ [text]).flatMap Message.framed }
  have hincoming : told.incoming = Message.unread texts.length c.incoming := rfl
  have hreceive := Connection.receive_unread hincoming
  have hafter : { told with incoming := Message.unread (texts.length + 1) c.incoming } =
      c.after (texts ++ [text]) := by
    simp [told, Connection.after]
  rw [hafter] at hreceive
  simp only [told] at hreceive
  simp only [exchange, hc, Connection.send_after hpeer texts h, hreceive]
  cases Message.reply c.incoming texts.length <;> rfl

end Machine

namespace Call

open Message (terminator)

/-- The text that a call sends to the peer. -/
def sent? (call : Call) : Option String :=
  match call.primitive, call.machine.stack.values with
  | .retrieve, .text text :: _ => if terminator ∈ Utf8.encode text then none else some text
  | _, _ => none

variable {call : Call} {c : Connection}

theorem sent?_of_ne_retrieve (h : call.primitive ≠ .retrieve) : call.sent? = none := by
  unfold sent?
  split
  · rename_i hretrieve _
    exact absurd hretrieve h
  · rfl

theorem next_of_sent?_eq_none (hretrieve : call.primitive = .retrieve)
    (hc : call.machine.connection = some c) (h : call.sent? = none) :
    ∃ cause s, call.next = .raising ((Error.ofCause cause).within call.layer)
      (call.machine.withStack s) call.calls := by
  obtain ⟨primitive, ⟨⟨values, room⟩, dictionary, generator, console, connection, clock,
    maxNesting, depth⟩, layer, calls⟩ := call
  dsimp only at hretrieve hc
  subst hretrieve hc
  cases values with
  | nil => exact ⟨.underflow, ⟨[], room⟩, rfl⟩
  | cons v rest =>
    cases v with
    | text text =>
      have hmem : terminator ∈ Utf8.encode text := by
        by_contra hmem
        simp [sent?, hmem] at h
      refine ⟨.failure .zeroByte, ⟨rest, room + 1⟩, ?_⟩
      simp only [next, Primitive.perform, Machine.performRetrieve, Machine.taking, Stack.popText,
        Stack.popAs]
      rw [Machine.exchange_of_mem rfl hmem]
      rfl
    | boolean b => exact ⟨.unexpectedType .text .boolean, ⟨rest, room + 1⟩, rfl⟩
    | integer n => exact ⟨.unexpectedType .text .integer, ⟨rest, room + 1⟩, rfl⟩
    | float x => exact ⟨.unexpectedType .text .float, ⟨rest, room + 1⟩, rfl⟩
    | quotation code => exact ⟨.unexpectedType .text .quotation, ⟨rest, room + 1⟩, rfl⟩
    | timestamp t => exact ⟨.unexpectedType .text .timestamp, ⟨rest, room + 1⟩, rfl⟩

def told (call : Call) (c : Connection) : Machine :=
  { call.machine with stack := call.machine.stack.popText.2, connection := some c }

theorem next_of_sent?_eq_some {texts : List String} {text : String}
    (hc : call.machine.connection = some (c.after texts)) (hpeer : c.peer = .silent)
    (h : call.sent? = some text) :
    call.next =
      match Message.reply c.incoming texts.length with
      | .ok code => (call.told (c.after (texts ++ [text]))).enter call.calls (.call call.layer) code
      | .error f => .raising ((Error.ofCause (.failure f)).within call.layer)
          (call.told (c.after (texts ++ [text]))) call.calls := by
  unfold sent? at h
  split at h
  · rename_i found rest hretrieve hvalues
    split at h
    · cases h
    · rename_i hmem
      cases h
      have hpop : call.machine.stack.popText = (.ok text, ⟨rest, call.machine.stack.room + 1⟩) := by
        simp only [Stack.popText, Stack.popAs, hvalues]
      have hexchange := Machine.exchange_after
        (m := call.machine.withStack ⟨rest, call.machine.stack.room + 1⟩) hc hpeer hmem
      simp only [next, hretrieve, Primitive.perform, Machine.performRetrieve, Machine.taking, hpop,
        hexchange, told]
      cases Message.reply c.incoming texts.length <;> rfl
  · cases h

end Call

namespace Progress

/-- From the first state the second one comes about by steps and by runs of further sources, and
these are the calls of primitives on the way, in order. -/
inductive Performs (p : Progress) : List Call → Progress → Prop
  | refl : Performs p [] p
  | step {q : Progress} {calls : List Call} (h : Performs p calls q) :
      Performs p (calls ++ q.call?.toList) q.next
  | execute {calls : List Call} {v : Verdict} {m : Machine} (h : Performs p calls (.halted v m))
      (hv : v.returns) (source : Source) : Performs p calls (m.accept (.execute source))

variable {p q : Progress} {calls : List Call} {c : Connection}

theorem performs_callsIn (p : Progress) (n : Nat) : p.Performs (p.callsIn n) (next^[n] p) := by
  have hgeneral : ∀ (n : Nat) (q : Progress) (calls : List Call), p.Performs calls q →
      p.Performs (calls ++ q.callsIn n) (next^[n] q) := by
    intro n
    induction n with
    | zero =>
      intro q calls h
      rw [callsIn, List.append_nil]
      exact h
    | succ n ih =>
      intro q calls h
      rw [callsIn, ← List.append_assoc]
      exact ih q.next _ h.step
  exact hgeneral n p [] .refl

theorem Performs.exists_call {before later : List Call} {call : Call}
    (h : p.Performs (before ++ call :: later) q) :
    ∃ r, p.Performs before r ∧ r.call? = some call := by
  generalize hcalls : before ++ call :: later = calls at h
  induction h generalizing later with
  | refl => simp at hcalls
  | execute h hv source ih => exact ih hcalls
  | step h ih =>
    rename_i q calls
    cases hcall : q.call? with
    | none =>
      rw [hcall, Option.toList_none, List.append_nil] at hcalls
      exact ih hcalls
    | some last =>
      rw [hcall, Option.toList_some] at hcalls
      rcases List.eq_nil_or_concat later with rfl | ⟨init, x, rfl⟩
      · obtain ⟨rfl, hlast⟩ := List.append_inj' hcalls rfl
        cases hlast
        exact ⟨q, h, hcall⟩
      · have hsplit : (before ++ call :: init) ++ [x] = calls ++ [last] := by
          simpa using hcalls
        exact ih (List.append_inj' hsplit rfl).1

theorem connection_next (h : ∀ call, p.call? = some call → call.primitive ≠ .retrieve) :
    p.next.machine.connection = p.machine.connection := by
  cases hcall : p.call? with
  | none => exact (congrArg Prod.snd (supply_next hcall)).trans p.connection_fetched
  | some call =>
    obtain ⟨hnext, hmachine⟩ := next_of_call? hcall
    have hsupply :=
      Machine.supply_proceed call.calls call.layer (call.primitive.perform call.machine)
    rw [hnext, Call.next]
    calc _ = (call.primitive.perform call.machine).machine.connection := congrArg Prod.snd hsupply
      _ = call.machine.connection := Machine.connection_perform _ (h call hcall)
      _ = p.machine.connection := by rw [hmachine, connection_fetched]

theorem connection_next_of_retrieve {texts : List String} {call : Call}
    (hc : p.machine.connection = some (c.after texts)) (hpeer : c.peer = .silent)
    (hcall : p.call? = some call) (hretrieve : call.primitive = .retrieve) :
    p.next.machine.connection = some (c.after (texts ++ call.sent?.toList)) := by
  obtain ⟨hnext, hmachine⟩ := next_of_call? hcall
  rw [← p.connection_fetched, ← hmachine] at hc
  rw [hnext]
  cases hsent : call.sent? with
  | none =>
    obtain ⟨cause, s, hraise⟩ := Call.next_of_sent?_eq_none hretrieve hc hsent
    rw [hraise, Option.toList_none, List.append_nil]
    exact hc
  | some text =>
    rw [Call.next_of_sent?_eq_some hc hpeer hsent]
    cases Message.reply c.incoming texts.length with
    | error f => rfl
    | ok code =>
      exact congrArg Prod.snd (Machine.supply_start (call.told _) call.calls _)

theorem Performs.connection (hc : p.machine.connection = some c) (hpeer : c.peer = .silent)
    (h : p.Performs calls q) :
    q.machine.connection = some (c.after (calls.filterMap Call.sent?)) := by
  induction h with
  | refl =>
    rw [List.filterMap_nil, c.after_nil]
    exact hc
  | execute h hv source ih =>
    exact (congrArg Prod.snd (Machine.supply_start _ [] _)).trans ih
  | step h ih =>
    rename_i q calls
    rw [List.filterMap_append]
    by_cases hretrieve : ∃ call, q.call? = some call ∧ call.primitive = .retrieve
    · obtain ⟨call, hcall, hprimitive⟩ := hretrieve
      rw [connection_next_of_retrieve ih hpeer hcall hprimitive, hcall]
      cases hsent : call.sent? <;> simp [hsent]
    · have hother : ∀ call, q.call? = some call → call.primitive ≠ .retrieve := by
        intro call hcall hprimitive
        exact hretrieve ⟨call, hcall, hprimitive⟩
      have hnone : q.call?.toList.filterMap Call.sent? = [] := by
        cases hcall : q.call? with
        | none => rfl
        | some call => simp [Call.sent?_of_ne_retrieve (hother call hcall)]
      rw [connection_next hother, hnone, List.append_nil]
      exact ih

/-- A machine is connected to a peer that has sent some bytes, and it runs any sources, one after
the other.  At every point, the bytes sent are those of the texts that calls of `retrieve` have
sent, in order, and as many messages have been taken.  A call of `retrieve` that finds no text, or
one that cannot be sent, fails and leaves the connection alone.  One that sends a text as the one
with number `k` goes on with the message with number `k`: it runs its text, if so many texts may be
running, or it fails, for want of such a message or of a text in it. -/
theorem retrieve_in_lockstep (hc : p.machine.connection = some c) (hpeer : c.peer = .silent)
    (h : p.Performs calls q) :
    q.machine.connection = some { c with
      sent := c.sent ++ (calls.filterMap Call.sent?).flatMap Message.framed
      incoming := Message.unread (calls.filterMap Call.sent?).length c.incoming } ∧
    ∀ before call later, calls = before ++ call :: later → call.primitive = .retrieve →
      ∃ r, p.Performs before r ∧ r.call? = some call ∧
        r.machine.connection = some (c.after (before.filterMap Call.sent?)) ∧
        match call.sent? with
        | none => ∃ cause s, r.next =
            .raising ((Error.ofCause cause).within call.layer) (call.machine.withStack s) call.calls ∧
            call.machine.connection = r.machine.connection
        | some text =>
          let told := call.told (c.after (before.filterMap Call.sent? ++ [text]))
          match Message.reply c.incoming (before.filterMap Call.sent?).length with
          | .ok code => r.next = told.enter call.calls (.call call.layer) code
          | .error f => r.next =
              .raising ((Error.ofCause (.failure f)).within call.layer) told call.calls := by
  refine ⟨h.connection hc hpeer, ?_⟩
  rintro before call later rfl hretrieve
  obtain ⟨r, hr, hcall⟩ := h.exists_call
  obtain ⟨hnext, hmachine⟩ := next_of_call? hcall
  have hconnection := hr.connection hc hpeer
  have hfetched : call.machine.connection = r.machine.connection := by
    rw [hmachine, connection_fetched]
  refine ⟨r, hr, hcall, hconnection, ?_⟩
  rw [hnext]
  rw [← hfetched] at hconnection
  cases hsent : call.sent? with
  | none =>
    obtain ⟨cause, s, hraise⟩ := Call.next_of_sent?_eq_none hretrieve hconnection hsent
    exact ⟨cause, s, hraise, hfetched⟩
  | some text =>
    rw [Call.next_of_sent?_eq_some hconnection hpeer hsent]
    dsimp only
    cases Message.reply c.incoming (before.filterMap Call.sent?).length <;> rfl

/-- A reply that makes a request of its own, and a request behind it that sends nothing. -/
theorem nested_request_in_lockstep :
    let c : Connection := { incoming := Message.framed "*b retrieve" ++ Message.framed "7" }
    let start := (Machine.bare { connection := some c }).accept
      (.execute (.ofText "*a retrieve 1 retrieve"))
    (start.callsIn 9).length = 3 ∧
      (next^[9] start).machine.connection =
        some { incoming := [], sent := Message.framed "a" ++ Message.framed "b" } := by
  intro c start
  have hcalls : (start.callsIn 9).length = 3 ∧
      (start.callsIn 9).filterMap Call.sent? = ["a", "b"] := by
    decide
  have hunread : Message.unread 2 c.incoming = [] := by
    decide
  have hlockstep := retrieve_in_lockstep (c := c) rfl rfl (start.performs_callsIn 9)
  rw [hcalls.2] at hlockstep
  refine ⟨hcalls.1, hlockstep.1.trans ?_⟩
  simp only [List.length_cons, List.length_nil, hunread]
  rfl

end Progress

end StackScript
