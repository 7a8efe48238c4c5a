import StackScript.CommandLine.Report
import StackScript.Proofs.EchoConversation
import StackScript.Proofs.FailureOrigin
import StackScript.Proofs.RequestReply
/-!
# How the session of a client ends

A client runs the first program that its server sends.  It ends well when that program has run to
its end, and also after any failure that says that something has come to its end too early.  Two
kinds of calls fail so (`Call.failsWith_unexpectedEnd_iff`): a `read` that finds the line input
closed, and a `retrieve` whose server hangs up without a whole answer.  A server that hangs up
without a whole first message makes the client end well, too (`CommandLine.client_exits_well_iff`).
-/

namespace StackScript

open Message (terminator)

theorem Connection.receive_fst_eq_messageCut_iff {c : Connection} :
    c.receive.1 = .error .messageCut ↔ terminator ∉ c.incoming := by
  constructor
  · intro h hmem
    obtain ⟨message, rest, hincoming, hmessage⟩ := List.eq_append_cons_of_mem hmem
    cases hdecode : Utf8.decode message with
    | ok text =>
      obtain rfl := Utf8.decode_eq_ok_iff.mp hdecode
      rw [receive_text hmessage (by rw [hincoming, Message.framed_append])] at h
      cases h
    | error defect =>
      rw [receive_malformed hmessage hdecode hincoming] at h
      cases h
  · intro h
    rw [receive_of_not_mem h]

namespace Machine

variable {m n : Machine} {c : Connection} {text : String} {f : Failure}

theorem input_eq_nil_of_performRead (h : m.performRead = .failed (.failure .inputClosed) n) :
    m.console.input = [] := by
  unfold performRead at h
  split at h
  · cases cause_of_answer h
  · rename_i hread
    cases h
    rcases Console.failure_of_readLine (congrArg (Prod.map id console) hread) with ⟨-, hinput⟩ | hf
    · exact hinput
    · cases hf

theorem exchange_of_none (hc : m.connection = none) (text : String) :
    m.exchange text = .settled (.failed .notConnected m) := by
  simp only [exchange, hc]

theorem exchange_messageCut_iff (hc : m.connection = some c) (h : terminator ∉ Utf8.encode text) :
    (∃ n, m.exchange text = .settled (.failed (.failure .messageCut) n)) ↔
      terminator ∉ c.incoming ++ c.peer.answer text := by
  let told : Connection :=
    { c with
      sent := c.sent ++ Message.framed text
      incoming := c.incoming ++ c.peer.answer text }
  have hsend : c.send text = (.ok (), told) := Connection.send_of_not_mem h
  have hreceive : told.receive.1 = .error .messageCut ↔ terminator ∉ told.incoming :=
    Connection.receive_fst_eq_messageCut_iff
  rw [← hreceive]
  simp only [exchange, hc, hsend]
  rcases told.receive with ⟨result, d⟩
  cases result with
  | error f => simp
  | ok code => simp

theorem performRetrieve_of_text {below : List Value} (h : m.stack.values = .text text :: below) :
    m.performRetrieve = (m.withStack ⟨below, m.stack.room + 1⟩).exchange text := by
  simp only [performRetrieve, taking, Stack.popText, Stack.popAs, h]

theorem exists_text_of_performRetrieve
    (h : m.performRetrieve = .settled (.failed (.failure f) n)) :
    ∃ text below, m.stack.values = .text text :: below := by
  cases hvalues : m.stack.values with
  | nil =>
    simp only [performRetrieve, taking, Stack.popText, Stack.popAs, hvalues] at h
    cases h
  | cons v below =>
    cases v with
    | text text => exact ⟨text, below, rfl⟩
    | _ =>
      simp only [performRetrieve, taking, Stack.popText, Stack.popAs, hvalues] at h
      cases h

end Machine

namespace Call

/-- The call asks for a line when there is none left. -/
def FindsInputClosed (call : Call) : Prop :=
  call.primitive = .read ∧ call.machine.console.input = []

/-- The call sends a text to a server that hangs up without a whole answer. -/
def FindsServerGone (call : Call) : Prop :=
  ∃ text c, call.sent? = some text ∧ call.machine.connection = some c ∧
    terminator ∉ c.incoming ++ c.peer.answer text

variable {call : Call} {f : Failure} {text : String}

theorem sent?_eq_some_iff :
    call.sent? = some text ↔ call.primitive = .retrieve ∧
      (∃ below, call.machine.stack.values = .text text :: below) ∧
      terminator ∉ Utf8.encode text := by
  unfold sent?
  constructor
  · intro h
    split at h
    · rename_i found below hretrieve hvalues
      split at h
      · cases h
      · rename_i hmem
        cases h
        exact ⟨hretrieve, ⟨below, hvalues⟩, hmem⟩
    · cases h
  · rintro ⟨hretrieve, ⟨below, hvalues⟩, hmem⟩
    rw [hretrieve, hvalues]
    exact if_neg hmem

theorem findsServerGone_of_performRetrieve {n : Machine} (hretrieve : call.primitive = .retrieve)
    (h : call.machine.performRetrieve = .settled (.failed (.failure .messageCut) n)) :
    call.FindsServerGone := by
  obtain ⟨text, below, hvalues⟩ := Machine.exists_text_of_performRetrieve h
  rw [Machine.performRetrieve_of_text hvalues] at h
  let popped := call.machine.withStack ⟨below, call.machine.stack.room + 1⟩
  cases hc : call.machine.connection with
  | none =>
    rw [Machine.exchange_of_none (m := popped) hc] at h
    cases h
  | some c =>
    have htext : terminator ∉ Utf8.encode text := by
      intro hmem
      rw [Machine.exchange_of_mem (m := popped) hc hmem] at h
      cases h
    have hgone := (Machine.exchange_messageCut_iff (m := popped) hc htext).mp ⟨n, h⟩
    exact ⟨text, c, sent?_eq_some_iff.mpr ⟨hretrieve, ⟨below, hvalues⟩, htext⟩, hc, hgone⟩

theorem FindsServerGone.exists_perform (h : call.FindsServerGone) :
    ∃ n, call.primitive.perform call.machine = .settled (.failed (.failure .messageCut) n) := by
  obtain ⟨text, c, hsent, hc, hgone⟩ := h
  obtain ⟨hretrieve, ⟨below, hvalues⟩, htext⟩ := sent?_eq_some_iff.mp hsent
  let popped := call.machine.withStack ⟨below, call.machine.stack.room + 1⟩
  rw [hretrieve, Primitive.perform, Machine.performRetrieve_of_text hvalues]
  exact (Machine.exchange_messageCut_iff (m := popped) hc htext).mpr hgone

/-- A call fails because something has come to its end too early in two cases. -/
theorem failsWith_unexpectedEnd_iff :
    call.FailsWith f ∧ f.kind = .unexpectedEnd ↔
      f = .inputClosed ∧ call.FindsInputClosed ∨ f = .messageCut ∧ call.FindsServerGone := by
  constructor
  · rintro ⟨⟨n, hperform⟩, hkind⟩
    have hmay := call.machine.mayFail_perform call.primitive
    rw [hperform] at hmay
    rcases Primitive.MayFail.of_unexpectedEnd hmay hkind with ⟨hread, rfl⟩ | ⟨hretrieve, rfl⟩
    · rw [hread] at hperform
      exact .inl ⟨rfl, hread, Machine.input_eq_nil_of_performRead (Effect.settled.inj hperform)⟩
    · rw [hretrieve] at hperform
      exact .inr ⟨rfl, findsServerGone_of_performRetrieve hretrieve hperform⟩
  · rintro (⟨rfl, hread, hinput⟩ | ⟨rfl, hgone⟩)
    · refine ⟨⟨call.machine, ?_⟩, rfl⟩
      rw [hread]
      exact Machine.perform_read_of_nil hinput
    · exact ⟨hgone.exists_perform, rfl⟩

end Call

namespace CommandLine

variable {fuel : Nat} {i : Invocation} {env : Environment} {m m' : Machine} {v : Verdict}
  {connection : Connection} {code : String}

theorem isClosedInput_iff {e : Error} :
    isClosedInput e ↔ ∃ f, e.cause = .failure f ∧ f.kind = .unexpectedEnd := by
  unfold isClosedInput
  cases e.cause with
  | failure f => simp
  | _ => simp

theorem exit_ofClient_eq_zero_iff :
    (Report.ofClient m v).exit = 0 ↔
      v = .done ∨ ∃ e, v = .failed e ∧ isClosedInput e := by
  cases v with
  | failed e =>
    by_cases h : isClosedInput e
    · simp [Report.ofClient, h]
    · simp [Report.ofClient, h, Report.ofRun, refused]
  | _ => simp [Report.ofClient, Report.ofRun, refused]

theorem exit_ofClient_of_executeText (h : m.executeText fuel code = (v, m')) :
    (Report.ofClient m' v).exit = 0 ↔
      v = .done ∨ ∃ k call,
        (Progress.next^[k] (m.accept (.execute (.ofText code)))).call? = some call ∧
        (call.FindsInputClosed ∧ v = .failed (call.raised .inputClosed) ∨
          call.FindsServerGone ∧ v = .failed (call.raised .messageCut)) := by
  rw [exit_ofClient_eq_zero_iff]
  refine or_congr_right ⟨?_, ?_⟩
  · rintro ⟨e, rfl, hclosed⟩
    obtain ⟨f, hcause, hkind⟩ := isClosedInput_iff.mp hclosed
    have hreliable : (m.accept (.execute (.ofText code))).Throughout Activation.Reliable :=
      Machine.throughout_start rfl (List.forall_mem_nil _)
    have hends := Progress.ends_of_run h (by simp)
    obtain ⟨k, call, hcall, hfails⟩ :=
      (Progress.failed_iff_exists_call hreliable (m.not_blames_start _ _ f) hends).mp
        ⟨e, rfl, hcause⟩
    have hv := Progress.verdict_of_failsWith hends hcall hfails
    refine ⟨k, call, hcall, ?_⟩
    rcases Call.failsWith_unexpectedEnd_iff.mp ⟨hfails, hkind⟩ with ⟨rfl, hfound⟩ | ⟨rfl, hfound⟩
    · exact .inl ⟨hfound, hv⟩
    · exact .inr ⟨hfound, hv⟩
  · rintro ⟨k, call, -, ⟨-, hv⟩ | ⟨-, hv⟩⟩
    · exact ⟨_, hv, isClosedInput_iff.mpr ⟨_, call.cause_raised _, rfl⟩⟩
    · exact ⟨_, hv, isClosedInput_iff.mpr ⟨_, call.cause_raised _, rfl⟩⟩

section Session

variable {address : String} (hcommand : i.command = .connect address)
  (hopen : env.openConnection address = .ok connection)

include hcommand hopen

theorem run_of_failed {f : Failure} {left : Connection}
    (h : connection.receive = (.error f, left)) :
    i.run fuel env =
      .ofClient (Machine.bare (i.settings env (some left))) (.failed (.ofCause (.failure f))) := by
  simp only [Invocation.run, hcommand, runClient, hopen, h]

theorem run_of_full {left : Connection} (h : connection.receive = (.ok code, left))
    (hfull : Machine.full fuel (i.settings env (some left)) = (.done, m)) :
    i.run fuel env = .ofClient (m.executeText fuel code).2 (m.executeText fuel code).1 := by
  simp only [Invocation.run, hcommand, runClient, hopen, h, hfull]

theorem run_of_not_full {left : Connection} (h : connection.receive = (.ok code, left))
    (hfull : Machine.full fuel (i.settings env (some left)) = (v, m)) (hv : v ≠ .done) :
    i.run fuel env = .ofClient m v := by
  cases v with
  | done => exact absurd rfl hv
  | _ => simp only [Invocation.run, hcommand, runClient, hopen, h, hfull]

theorem exit_of_received {left : Connection} (h : connection.receive = (.ok code, left)) :
    (i.run fuel env).exit = 0 ↔
      ∃ m v m', Machine.full fuel (i.settings env (some left)) = (.done, m) ∧
        m.executeText fuel code = (v, m') ∧ (Report.ofClient m' v).exit = 0 := by
  rcases hfull : Machine.full fuel (i.settings env (some left)) with ⟨w, m⟩
  by_cases hw : w = .done
  · subst hw
    rw [run_of_full hcommand hopen h hfull]
    constructor
    · intro hexit
      exact ⟨m, _, _, rfl, rfl, hexit⟩
    · rintro ⟨n, v, m', hn, hrun, hexit⟩
      cases hn
      rw [hrun]
      exact hexit
  · rw [run_of_not_full hcommand hopen h hfull hw, exit_ofClient_eq_zero_iff]
    constructor
    · rintro (hdone | ⟨e, rfl, hclosed⟩)
      · exact absurd hdone hw
      · obtain ⟨f, hcause, -⟩ := isClosedInput_iff.mp hclosed
        cases (Machine.cause_of_full hfull).symm.trans hcause
    · rintro ⟨n, v, m', hn, -⟩
      exact absurd (Prod.mk.inj hn).1 hw

/-- A client ends well in four cases: its server hangs up without a whole first message; the program
in that message runs to its end; a call of that run finds the line input closed, and the run fails
with it; a call of that run sends a text to the server, which hangs up without a whole answer, and
the run fails with it. -/
theorem client_exits_well_iff :
    (i.run fuel env).exit = 0 ↔
      terminator ∉ connection.incoming ∨
      ∃ code rest m v m', terminator ∉ Utf8.encode code ∧
        connection.incoming = Message.framed code ++ rest ∧
        Machine.full fuel (i.settings env (some { connection with incoming := rest })) =
          (.done, m) ∧
        m.executeText fuel code = (v, m') ∧
        (v = .done ∨ ∃ k call,
          (Progress.next^[k] (m.accept (.execute (.ofText code)))).call? = some call ∧
          (call.FindsInputClosed ∧ v = .failed (call.raised .inputClosed) ∨
            call.FindsServerGone ∧ v = .failed (call.raised .messageCut))) := by
  constructor
  · intro hexit
    by_cases hmem : terminator ∈ connection.incoming
    · obtain ⟨message, rest, hincoming, hmessage⟩ := List.eq_append_cons_of_mem hmem
      cases hdecode : Utf8.decode message with
      | error defect =>
        have hmalformed := Connection.receive_malformed hmessage hdecode hincoming
        rw [run_of_failed hcommand hopen hmalformed] at hexit
        cases hexit
      | ok code =>
        obtain rfl := Utf8.decode_eq_ok_iff.mp hdecode
        rw [← Message.framed_append] at hincoming
        have hreceived := Connection.receive_text hmessage hincoming
        obtain ⟨m, v, m', hfull, hrun, hend⟩ :=
          (exit_of_received hcommand hopen hreceived).mp hexit
        exact .inr ⟨code, rest, m, v, m', hmessage, hincoming, hfull, hrun,
          (exit_ofClient_of_executeText hrun).mp hend⟩
    · exact .inl hmem
  · rintro (hgone | ⟨code, rest, m, v, m', hcode, hincoming, hfull, hrun, hend⟩)
    · rw [run_of_failed hcommand hopen (Connection.receive_of_not_mem hgone)]
      rfl
    · have hreceived := Connection.receive_text hcode hincoming
      rw [exit_of_received hcommand hopen hreceived]
      exact ⟨m, v, m', hfull, hrun, (exit_ofClient_of_executeText hrun).mpr hend⟩

end Session

/-- Two servers hang up, one at once and one when it has been asked for an answer.  The client ends
well, though its input is not closed and its program is not at its end. -/
theorem client_exits_well_without_answer :
    let i : Invocation := { command := .connect "server", seed := some 0, capacity := 2 }
    let env (incoming : List UInt8) : Environment :=
      { standardInput := typed "a line", entropy := 0
        openFile := fun _ => .error noSuchFile, openConnection := fun _ => .ok { incoming } }
    (∀ fuel, (i.run fuel (env [])).exit = 0) ∧
      ∃ fuel, (i.run fuel (env (Message.framed "*x retrieve"))).exit = 0 := by
  intro i env
  constructor
  · intro fuel
    exact (client_exits_well_iff rfl rfl).mpr (.inl List.not_mem_nil)
  · let s := i.settings (env (Message.framed "*x retrieve")) (some { incoming := [] })
    obtain ⟨fuel₀, hfull⟩ := Machine.exists_full_eq (s := s) (by decide) (by decide)
    let m : Machine := { Machine.bare s with dictionary := Library.standard }
    have hrun : m.executeText 4 "*x retrieve" =
        (.failed ((Error.ofCause (.failure .messageCut)).within ⟨⟨1, 4⟩, some "retrieve"⟩),
          (m.executeText 4 "*x retrieve").2) := rfl
    have hfull' : Machine.full (fuel₀ + 4) s = (.done, m) :=
      Progress.run_add_of_eq hfull (by simp) 4
    have hrun' := Progress.run_add_of_eq hrun (by simp) fuel₀
    rw [Nat.add_comm] at hrun'
    have hcode : terminator ∉ Utf8.encode "*x retrieve" := by decide
    refine ⟨fuel₀ + 4, (client_exits_well_iff rfl rfl).mpr (.inr ?_)⟩
    refine ⟨_, [], m, _, _, hcode, (List.append_nil _).symm, hfull', hrun',
      .inr ⟨1, _, rfl, .inr ?_⟩⟩
    exact ⟨⟨"x", { incoming := [] }, rfl, rfl, by decide⟩, rfl⟩

end CommandLine

end StackScript
