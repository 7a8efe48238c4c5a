import StackScript.LineSession
import StackScript.Proofs.ConsoleFrame
/-!
# The rounds of a line session

The lines of a session and the lines that they read come from one input.  Each line is taken once,
as a line to run or by the line that is being run, and what a line leaves in the machine does not
depend on the session around it: it is what the same lines leave that are run one after the other
with nothing but the lines they read as input (`LineSession.each_line_is_taken_once`).
-/

namespace StackScript

/-- What a session writes about the end of a line. -/
def Verdict.report : Verdict → List UInt8
  | .failed e => Utf8.encode (e.message ++ "\n")
  | _ => []

/-- A line of a session that was run. -/
structure Round where
  /-- The line in the input, its ending included. -/
  line : List UInt8
  text : String
  /-- The lines that it read. -/
  taken : List (List UInt8)
  verdict : Verdict
  /-- The bytes that it wrote. -/
  written : List UInt8

namespace Round

/-- The lines that a round takes from the input. -/
def lines (r : Round) : List (List UInt8) :=
  r.line :: r.taken

def output (prompt : String) (r : Round) : List UInt8 :=
  Utf8.encode prompt ++ r.written ++ r.verdict.report

/-- To run the text of the round, from outside, leads from one machine to the other. -/
structure Runs (r : Round) (m n : Machine) : Prop where
  depth : m.depth = 0
  returns : r.verdict.returns
  executes : ∃ fuel, m.executeText fuel r.text = (r.verdict, n) ∧
    ((m.accept (.execute (.ofText r.text))).callsIn fuel).filterMap Call.line? = r.taken
  contents : n.console.sink.contents = m.console.sink.contents ++ r.written

/-- The texts of some rounds are run one after the other, whatever comes of each of them. -/
inductive RunAll : Machine → List Round → Machine → Prop
  | nil (m : Machine) : RunAll m [] m
  | cons {m n k : Machine} {r : Round} {rounds : List Round} (h : r.Runs m n)
      (hrest : RunAll n rounds k) : RunAll m (r :: rounds) k

theorem taken_sublist_lines (rounds : List Round) :
    (rounds.flatMap taken).Sublist (rounds.flatMap lines) := by
  induction rounds with
  | nil => exact .refl _
  | cons r rounds ih =>
    rw [List.flatMap_cons, List.flatMap_cons]
    exact (List.sublist_cons_self r.line r.taken).append ih

end Round

namespace Machine

variable {m n : Machine} {text : String} {v : Verdict}

theorem private_execute (m : Machine) (source : Source) : (m.accept (.execute source)).Private :=
  throughout_start rfl (List.forall_mem_nil _)

theorem console_execute (m : Machine) (source : Source) :
    (m.accept (.execute source)).machine.console = m.console := by
  rw [accept, start]
  split <;> rfl

theorem Unlimited.of_execute (hm : m.Unlimited)
    (hends : (m.accept (.execute (.ofText text))).Ends v n) : n.Unlimited := by
  obtain ⟨steps, hsteps⟩ := hends
  have hstart : (m.accept (.execute (.ofText text))).machine.Unlimited := by
    rw [Unlimited, console_execute]
    exact hm
  have hunlimited := Progress.unlimited_iterate hstart steps
  rw [hsteps] at hunlimited
  exact hunlimited

theorem length_input_le_of_execute (hends : (m.accept (.execute (.ofText text))).Ends v n) :
    n.console.input.length ≤ m.console.input.length := by
  obtain ⟨steps, hsteps⟩ := hends
  have hinput := (m.private_execute (.ofText text)).input_run steps
  rw [hsteps, console_execute] at hinput
  rw [hinput, List.length_append]
  exact Nat.le_add_left _ _

/-- A text takes some lines and writes some bytes.  It does the same with just these lines as its
input and any lines behind them; if it has come to the end of the input, there must be none. -/
theorem exists_execute_alone (hm : m.Unlimited)
    (hends : (m.accept (.execute (.ofText text))).Ends v n) :
    ∃ taken written,
      cutLines m.console.input = taken ++ cutLines n.console.input ∧
      n.console.sink = m.console.sink.add written ∧
      (∃ fuel, m.executeText fuel text = (v, n) ∧
        ((m.accept (.execute (.ofText text))).callsIn fuel).filterMap Call.line? = taken) ∧
      ∀ (later : List (List UInt8)) (sink : Sink), sink.room = none →
        (taken ++ later).Sublist (cutLines m.console.input) →
        (n.console.input = [] → later = []) →
        let alone := m.withConsole ⟨(taken ++ later).flatten, sink⟩
        ∃ fuel, alone.executeText fuel text =
            (v, n.withConsole ⟨later.flatten, sink.add written⟩) ∧
          ((alone.accept (.execute (.ofText text))).callsIn fuel).filterMap Call.line? = taken := by
  obtain ⟨steps, hsteps⟩ := hends
  have hprivate := m.private_execute (.ofText text)
  have hlines := hprivate.cutLines_input_run steps
  have hunlimited : (m.accept (.execute (.ofText text))).machine.Unlimited := by
    rw [Unlimited, console_execute]
    exact hm
  obtain ⟨written, hsink, halone⟩ := hprivate.exists_iterate_withConsole hunlimited hsteps
  rw [hsteps, console_execute] at hlines
  rw [console_execute] at hsink
  generalize htaken :
    ((m.accept (.execute (.ofText text))).callsIn steps).filterMap Call.line? = taken
    at hlines halone
  refine ⟨taken, written, hlines, hsink, ⟨steps, Progress.run_of_iterate hsteps, htaken⟩, ?_⟩
  intro later sink hroom hsublist hlater alone
  have hrun : Progress.next^[steps] (alone.accept (.execute (.ofText text))) =
      .halted v (n.withConsole ⟨later.flatten, sink.add written⟩) := by
    rw [← halone later.flatten sink hroom (fun hend => by rw [hlater hend]; rfl),
      ← List.flatten_append]
    exact congrArg (Progress.next^[steps]) (start_onConsole _ m [] _)
  refine ⟨steps, Progress.run_of_iterate hrun, ?_⟩
  have haloneLines := (alone.private_execute (.ofText text)).cutLines_input_run steps
  have hbehind : later.Sublist (cutLines m.console.input) :=
    (List.sublist_append_right taken later).trans hsublist
  rw [hrun, console_execute] at haloneLines
  have hfirst : cutLines alone.console.input = taken ++ later :=
    cutLines_flatten_of_sublist hsublist
  have hlast : cutLines (n.withConsole ⟨later.flatten, sink.add written⟩).console.input = later :=
    cutLines_flatten_of_sublist hbehind
  rw [hfirst] at haloneLines
  exact (List.append_cancel_right (haloneLines.trans (congrArg _ hlast))).symm

end Machine

namespace LineSession

variable {prompt : String} {m n k : Machine} {line : String} {v : Verdict}

def prompted (prompt : String) (m : Machine) : Except Failure String × Machine :=
  (m.write prompt).2.readLine

def reported (m : Machine) : Verdict → Machine
  | .failed e => (m.write (e.message ++ "\n")).2
  | _ => m

/-- A session that begins in the first machine comes to run the line in the second one. -/
inductive Reaches (prompt : String) : Machine → String → Machine → Prop
  | first {m n : Machine} {line : String} (hline : prompted prompt m = (.ok line, n)) :
      Reaches prompt m line n
  | later {m n k n' : Machine} {line line' : String} {fuel : Nat} {v : Verdict}
      (hline : prompted prompt m = (.ok line, n)) (hrun : n.executeText fuel line = (v, k))
      (hv : v.returns) (h : Reaches prompt (reported k v) line' n') : Reaches prompt m line' n'

theorem prompted_eq (hm : m.Unlimited) (prompt : String) :
    prompted prompt m =
      (match cutLines m.console.input with
        | [] => .error .inputClosed
        | line :: _ => lineText line,
      m.withConsole ⟨(cutLines m.console.input).tail.flatten,
        m.console.sink.add (Utf8.encode prompt)⟩) := by
  rw [prompted, hm.write_eq, Machine.readLine]
  dsimp only
  rw [Console.readLine_eq]
  dsimp only [Machine.onConsole]
  cases hlines : cutLines m.console.input with
  | nil =>
    rw [cutLines_eq_nil_iff.mp hlines]
    rfl
  | cons line lines => rfl

theorem reported_eq (hm : m.Unlimited) (hv : v.returns) :
    reported m v = m.withConsole ⟨m.console.input, m.console.sink.add v.report⟩ := by
  cases v with
  | done => rfl
  | failed e =>
    rw [reported, hm.write_eq]
    rfl
  | aborted fault => cases hv
  | unfinished => cases hv

theorem reported_of_round {source : List UInt8} {lines : List (List UInt8)} (hm : m.Unlimited)
    (hdepth : m.depth = 0) (hlines : cutLines m.console.input = source :: lines)
    (hn : n = m.withConsole ⟨lines.flatten, m.console.sink.add (Utf8.encode prompt)⟩)
    (hends : (n.accept (.execute (.ofText line))).Ends v k) (hv : v.returns) :
    (reported k v).Unlimited ∧ (reported k v).depth = 0 ∧
      (reported k v).console.input.length < m.console.input.length := by
  have hk : k.Unlimited := Machine.Unlimited.of_execute (hn ▸ hm) hends
  have hsame := Progress.depth_of_ends_start hends hv
  have hle := Machine.length_input_le_of_execute hends
  rw [hn] at hsame hle
  rw [reported_eq hk hv]
  refine ⟨hk, hsame.trans hdepth, Nat.lt_of_le_of_lt hle ?_⟩
  have hne : source ≠ [] := ne_nil_of_mem_cutLines (by rw [hlines]; exact List.mem_cons_self)
  have hpositive := List.length_pos_of_ne_nil hne
  rw [← flatten_cutLines m.console.input, hlines, List.flatten_cons, List.length_append]
  exact Nat.lt_add_of_pos_left hpositive

theorem contents_reported {lines : List (List UInt8)} {written : List UInt8} (hk : k.Unlimited)
    (hv : v.returns)
    (hn : n = m.withConsole ⟨lines.flatten, m.console.sink.add (Utf8.encode prompt)⟩)
    (hsink : k.console.sink = n.console.sink.add written) :
    (reported k v).console.sink.contents =
      m.console.sink.contents ++ Utf8.encode prompt ++ written ++ v.report := by
  have hprompted : n.console.sink.contents = m.console.sink.contents ++ Utf8.encode prompt := by
    rw [hn]
    exact Sink.contents_add _ _
  have hreported : (reported k v).console.sink = k.console.sink.add v.report := by
    rw [reported_eq hk hv]
    rfl
  rw [hreported, Sink.contents_add, hsink, Sink.contents_add, hprompted]

theorem kind_of_lineText {line : List UInt8} {f : Failure} (h : lineText line = .error f) :
    f.kind = .invalidData := by
  rw [lineText] at h
  split at h
  · cases h
  · cases h
    rfl

theorem rounds_of_error (hm : m.Unlimited) {f : Failure} (hline : prompted prompt m = (.error f, n))
    (fuel limit : Nat) :
    rounds fuel prompt (limit + 1) m =
      (if f.kind = .unexpectedEnd then .closed else .failed f, n) := by
  rw [prompted, hm.write_eq] at hline
  rw [rounds, hm.write_eq]
  dsimp only at hline ⊢
  rw [hline]

theorem rounds_of_returns {fuel : Nat} (hm : m.Unlimited)
    (hline : prompted prompt m = (.ok line, n))
    (hrun : n.executeText fuel line = (v, k)) (hv : v.returns) (hk : k.Unlimited) (limit : Nat) :
    rounds fuel prompt (limit + 1) m = rounds fuel prompt limit (reported k v) := by
  rw [prompted, hm.write_eq] at hline
  rw [rounds, hm.write_eq]
  dsimp only at hline ⊢
  rw [hline]
  dsimp only
  rw [hrun]
  cases v with
  | done => rfl
  | failed e => simp only [reported, hk.write_eq]
  | aborted fault => cases hv
  | unfinished => cases hv

/-- A session ends when no line is left, or at a line that is not well-formed text. -/
def Leaves (sessionEnd : SessionEnd) : List (List UInt8) → Prop
  | [] => sessionEnd = .closed
  | line :: _ => ∃ f, lineText line = .error f ∧ f.kind = .invalidData ∧ sessionEnd = .failed f

/-- An account of a session: the lines it ran, those it left, and how it came to its end. -/
structure Account (prompt : String) (m : Machine) (rounds : List Round) (left : List (List UInt8))
    (sessionEnd : SessionEnd) (n : Machine) : Prop where
  lines : cutLines m.console.input = rounds.flatMap Round.lines ++ left
  texts : ∀ r ∈ rounds, lineText r.line = .ok r.text
  reached : ∀ r ∈ rounds, ∃ n k, Reaches prompt m r.text n ∧ r.Runs n k
  /-- Whatever was written before, the rounds are what running their texts comes to. -/
  runs : ∀ sink : Sink, sink.room = none →
    ∃ k, Round.RunAll (m.withConsole ⟨(rounds.flatMap Round.taken).flatten, sink⟩) rounds k ∧
      n = k.withConsole n.console
  contents : n.console.sink.contents =
    m.console.sink.contents ++ rounds.flatMap (Round.output prompt) ++ Utf8.encode prompt
  rest : n.console.input = left.tail.flatten
  ending : Leaves sessionEnd left

theorem Account.nil {sessionEnd : SessionEnd} (prompt : String)
    (h : Leaves sessionEnd (cutLines m.console.input)) :
    Account prompt m [] (cutLines m.console.input) sessionEnd
      (m.withConsole ⟨(cutLines m.console.input).tail.flatten,
        m.console.sink.add (Utf8.encode prompt)⟩) where
  lines := rfl
  texts := List.forall_mem_nil _
  reached := List.forall_mem_nil _
  runs sink _ := ⟨_, .nil _, rfl⟩
  contents := by
    rw [List.flatMap_nil, List.append_nil]
    exact Sink.contents_add _ _
  rest := rfl
  ending := h

theorem Account.cons {source : List UInt8} {lines left : List (List UInt8)} {rounds : List Round}
    {sessionEnd : SessionEnd} {z : Machine} (hm : m.Unlimited) (hdepth : m.depth = 0)
    (hlines : cutLines m.console.input = source :: lines) (hline : lineText source = .ok line)
    (hn : n = m.withConsole ⟨lines.flatten, m.console.sink.add (Utf8.encode prompt)⟩)
    (hends : (n.accept (.execute (.ofText line))).Ends v k) (hv : v.returns)
    (h : Account prompt (reported k v) rounds left sessionEnd z) :
    ∃ r, Account prompt m (r :: rounds) left sessionEnd z := by
  have hunlimited : n.Unlimited := by
    rw [hn]
    exact hm
  have hk : k.Unlimited := hunlimited.of_execute hends
  obtain ⟨taken, written, htaken, hsink, hown, halone⟩ :=
    Machine.exists_execute_alone hunlimited hends
  have hread : prompted prompt m = (.ok line, n) := by
    rw [prompted_eq hm, hlines, hn, ← hline]
    rfl
  have hwith (console : Console) :
      n.withConsole console = m.withConsole console ∧
        (reported k v).withConsole console = k.withConsole console := by
    rw [hn, reported_eq hk hv]
    exact ⟨rfl, rfl⟩
  have hinput : n.console.input = lines.flatten := by
    rw [hn]
    rfl
  have hleft : cutLines k.console.input = rounds.flatMap Round.lines ++ left := by
    have haccount := h.lines
    rw [reported_eq hk hv] at haccount
    exact haccount
  have hcut : lines = cutLines n.console.input := by
    rw [hinput]
    have hsublist : lines.Sublist (cutLines m.console.input) := by
      rw [hlines]
      exact List.sublist_cons_self source lines
    exact (cutLines_flatten_of_sublist hsublist).symm
  refine ⟨⟨source, line, taken, v, written⟩, ?_, ?_, ?_, ?_, ?_, h.rest, h.ending⟩
  · rw [hlines, hcut, htaken, hleft]
    simp [Round.lines]
  · exact List.forall_mem_cons.mpr ⟨hline, h.texts⟩
  · refine List.forall_mem_cons.mpr ⟨⟨n, k, .first hread, ?_, hv, hown, ?_⟩, ?_⟩
    · rw [hn]
      exact hdepth
    · rw [hsink]
      exact Sink.contents_add _ _
    · intro r hr
      obtain ⟨fuel, hrun, -⟩ := hown
      obtain ⟨n', k', hreaches, hruns⟩ := h.reached r hr
      exact ⟨n', k', .later hread hrun hv hreaches, hruns⟩
  · intro sink hroom
    have htakenSublist := Round.taken_sublist_lines rounds
    obtain ⟨fuel, hexecute, hcalls⟩ := halone (rounds.flatMap Round.taken) sink hroom
      (by
        rw [htaken, hleft]
        exact (htakenSublist.trans (List.sublist_append_left _ left)).append_left taken)
      (by
        intro hend
        rw [hend, cutLines] at hleft
        have hnone := (List.append_eq_nil_iff.mp hleft.symm).1
        rw [hnone] at htakenSublist
        exact List.sublist_nil.mp htakenSublist)
    obtain ⟨z', hall, hz⟩ := h.runs (sink.add written) hroom
    rw [(hwith _).2] at hall
    rw [(hwith _).1] at hexecute hcalls
    refine ⟨z', .cons ⟨hdepth, hv, ⟨fuel, hexecute, hcalls⟩, ?_⟩ hall, hz⟩
    exact sink.contents_add written
  · rw [h.contents, contents_reported hk hv hn hsink]
    simp [Round.output]

theorem exists_account_of_error {f : Failure} (hm : m.Unlimited)
    (hread : (prompted prompt m).1 = .error f)
    (hleaves : Leaves (if f.kind = .unexpectedEnd then .closed else .failed f)
      (cutLines m.console.input)) :
    ∃ rounds left sessionEnd z, Account prompt m rounds left sessionEnd z ∧
      ∃ fuel, ∀ more limit, m.console.input.length < limit →
        LineSession.rounds (fuel + more) prompt limit m = (sessionEnd, z) := by
  refine ⟨[], _, _, _, .nil prompt hleaves, 0, ?_⟩
  intro more limit hlimit
  obtain ⟨limit, rfl⟩ := Nat.exists_eq_add_one_of_ne_zero (Nat.ne_zero_of_lt hlimit)
  have hbroken : prompted prompt m = (.error f, (prompted prompt m).2) := by
    rw [← hread]
  rw [rounds_of_error hm hbroken, prompted_eq hm]

theorem exists_account (hm : m.Unlimited) (hdepth : m.depth = 0)
    (hreturns : ∀ line n, Reaches prompt m line n →
      ∃ fuel v k, n.executeText fuel line = (v, k) ∧ v.returns) :
    ∃ rounds left sessionEnd z, Account prompt m rounds left sessionEnd z ∧
      ∃ fuel, ∀ more limit, m.console.input.length < limit →
        LineSession.rounds (fuel + more) prompt limit m = (sessionEnd, z) := by
  induction hlength : m.console.input.length using Nat.strongRecOn generalizing m with
  | ind length ih =>
    subst hlength
    have hprompted := prompted_eq hm prompt
    cases hlines : cutLines m.console.input with
    | nil =>
      apply exists_account_of_error (f := .inputClosed) hm
      · rw [hprompted, hlines]
      · rw [hlines]
        rfl
    | cons source lines =>
      cases hline : lineText source with
      | error f =>
        have hkind : f.kind = .invalidData := kind_of_lineText hline
        apply exists_account_of_error (f := f) hm
        · rw [hprompted, hlines]
          exact hline
        · rw [hlines, hkind]
          exact ⟨f, hline, hkind, rfl⟩
      | ok line =>
        obtain ⟨n, hn⟩ : ∃ n, n =
            m.withConsole ⟨lines.flatten, m.console.sink.add (Utf8.encode prompt)⟩ := ⟨_, rfl⟩
        have hread : prompted prompt m = (.ok line, n) := by
          rw [hprompted, hlines, hn, ← hline]
          rfl
        obtain ⟨fuel, v, k, hrun, hv⟩ := hreturns line n (.first hread)
        have hfinished := Verdict.ne_unfinished hv
        have hends : (n.accept (.execute (.ofText line))).Ends v k :=
          Progress.ends_of_run hrun hfinished
        have hk : k.Unlimited := Machine.Unlimited.of_execute (hn ▸ hm) hends
        obtain ⟨hlater, hzero, hshorter⟩ := reported_of_round hm hdepth hlines hn hends hv
        obtain ⟨rounds, left, sessionEnd, z, haccount, fuel', hfuel⟩ :=
          ih _ hshorter hlater hzero
            (fun line' n' h => hreturns line' n' (.later hread hrun hv h)) rfl
        obtain ⟨r, hcons⟩ := Account.cons hm hdepth hlines hline hn hends hv haccount
        refine ⟨r :: rounds, left, sessionEnd, z, hcons, fuel + fuel', ?_⟩
        intro more limit hlimit
        obtain ⟨limit, rfl⟩ := Nat.exists_eq_add_one_of_ne_zero (Nat.ne_zero_of_lt hlimit)
        have hlonger : n.executeText (fuel + (fuel' + more)) line = (v, k) :=
          Progress.run_add_of_eq hrun hfinished _
        have hrest := hfuel (fuel + more) limit (by omega)
        rw [← Nat.add_assoc] at hlonger
        rw [Nat.add_left_comm, ← Nat.add_assoc] at hrest
        rw [rounds_of_returns hm hread hlonger hv hk, hrest]

theorem Reaches.exists_returns {fuel limit : Nat} (hm : m.Unlimited) (h : Reaches prompt m line n)
    (hrun : (LineSession.rounds fuel prompt limit m).1 = .closed) :
    ∃ v k, n.executeText fuel line = (v, k) ∧ v.returns := by
  have hreturns {m n : Machine} {line : String} {limit : Nat} (hm : m.Unlimited)
      (hline : prompted prompt m = (.ok line, n))
      (hrun : (LineSession.rounds fuel prompt (limit + 1) m).1 = .closed) :
      (n.executeText fuel line).1.returns := by
    rw [prompted, hm.write_eq] at hline
    rw [LineSession.rounds, hm.write_eq] at hrun
    dsimp only at hline hrun
    rw [hline] at hrun
    dsimp only at hrun
    rcases hexecute : n.executeText fuel line with ⟨v, k⟩
    rw [hexecute] at hrun
    cases v with
    | done => rfl
    | failed e => rfl
    | aborted fault => cases hrun
    | unfinished => cases hrun
  induction h generalizing limit with
  | first hline =>
    cases limit with
    | zero => cases hrun
    | succ limit => exact ⟨_, _, rfl, hreturns hm hline hrun⟩
  | @later m n k n' line line' fuel' v hline hrun' hv h ih =>
    cases limit with
    | zero => cases hrun
    | succ limit =>
      have hfirst := hreturns hm hline hrun
      have hends := Progress.ends_of_run hrun' (Verdict.ne_unfinished hv)
      obtain ⟨hverdict, hmachine⟩ :=
        (Progress.ends_of_run rfl (Verdict.ne_unfinished hfirst)).unique hends
      have hsame : n.executeText fuel line = (v, k) := Prod.ext hverdict hmachine
      have hn := congrArg (fun result : Except Failure String × Machine => result.2.Unlimited) hline
      rw [prompted_eq hm] at hn
      have hk := Machine.Unlimited.of_execute (hn.mp hm) hends
      rw [rounds_of_returns hm hline hsame hv hk] at hrun
      apply ih ?_ hrun
      rw [reported_eq hk hv]
      exact hk

/-- A session in a machine whose output takes everything and in which no text is running, and of
which every line that is run returns: it comes to an end.  The lines of the input are, in order, the
lines that were run, each followed by those it read, and then the lines that are left.  The lines
that were run leave what they leave when they are run one after the other, whatever comes of each,
with nothing but the lines they read as input; only the console differs, on which stand the prompt,
what the line wrote and its error, for each of them, and a last prompt.  Nothing is left, or the
session has stopped at a line that is not well-formed text. -/
theorem each_line_is_taken_once (hm : m.Unlimited) (hdepth : m.depth = 0)
    (hreturns : ∀ line n, Reaches prompt m line n →
      ∃ fuel v k, n.executeText fuel line = (v, k) ∧ v.returns) :
    ∃ (rounds : List Round) (left : List (List UInt8)) (sessionEnd : SessionEnd) (n k : Machine),
      (∃ fuel, ∀ more, LineSession.run (fuel + more) prompt m = (sessionEnd, n)) ∧
      cutLines m.console.input = rounds.flatMap Round.lines ++ left ∧
      (∀ r ∈ rounds, lineText r.line = .ok r.text ∧
        ∃ n k, Reaches prompt m r.text n ∧ r.Runs n k) ∧
      Round.RunAll
        (m.withConsole ⟨(rounds.flatMap Round.taken).flatten, m.console.sink⟩) rounds k ∧
      n = k.withConsole n.console ∧
      n.console.sink.contents =
        m.console.sink.contents ++ rounds.flatMap (Round.output prompt) ++ Utf8.encode prompt ∧
      n.console.input = left.tail.flatten ∧
      Leaves sessionEnd left ∧
      ∀ text, m.console.input = Utf8.encode text → left = [] ∧ sessionEnd = .closed := by
  obtain ⟨rounds, left, sessionEnd, n, haccount, fuel, hfuel⟩ := exists_account hm hdepth hreturns
  obtain ⟨k, hall, hn⟩ := haccount.runs m.console.sink hm
  have hrun : ∀ more, LineSession.run (fuel + more) prompt m = (sessionEnd, n) := by
    intro more
    exact hfuel more _ (Nat.lt_succ_self _)
  refine ⟨rounds, left, sessionEnd, n, k, ⟨fuel, hrun⟩, haccount.lines, ?_, hall, hn,
    haccount.contents, haccount.rest, haccount.ending, ?_⟩
  · intro r hr
    exact ⟨haccount.texts r hr, haccount.reached r hr⟩
  intro text htext
  have hending := haccount.ending
  cases left with
  | nil => exact ⟨rfl, hending⟩
  | cons line later =>
    obtain ⟨f, hbroken, -, -⟩ := hending
    have hmem : line ∈ cutLines (Utf8.encode text) := by
      rw [← htext, haccount.lines]
      simp
    obtain ⟨read, hread⟩ := exists_lineText_eq_ok hmem
    rw [hread] at hbroken
    cases hbroken

/-- A line that reads the line behind it, one that fails half way, and a last one without a line
feed. -/
theorem three_lines_are_taken_once :
    let m : Machine := Machine.bare { console := { input := Utf8.encode "read\na b\n1 nope\n2 write" } }
    m.Unlimited ∧ m.depth = 0 ∧ ∃ (rounds : List Round) (n : Machine),
      (∃ fuel, ∀ more, LineSession.run (fuel + more) "> " m = (.closed, n)) ∧
      cutLines m.console.input = rounds.flatMap Round.lines := by
  intro m
  have hm : m.Unlimited := rfl
  have hclosed : (LineSession.rounds 20 "> " 30 m).1 = .closed := rfl
  have hreturns : ∀ line n, Reaches "> " m line n →
      ∃ fuel v k, n.executeText fuel line = (v, k) ∧ v.returns := by
    intro line n h
    exact ⟨20, h.exists_returns hm hclosed⟩
  obtain ⟨rounds, left, sessionEnd, n, -, hrun, hlines, -, -, -, -, -, -, htext⟩ :=
    each_line_is_taken_once hm rfl hreturns
  obtain ⟨rfl, rfl⟩ := htext _ rfl
  rw [List.append_nil] at hlines
  exact ⟨hm, rfl, rounds, n, hrun, hlines⟩

end LineSession

end StackScript
