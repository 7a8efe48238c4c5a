import StackScript.Proofs.Capacity
import StackScript.Proofs.SharedInput
import StackScript.Proofs.StandardWords
import StackScript.CommandLine.Report
/-!
# Script and data on standard input

A program that is given no file runs the script on its standard input, and the words of the script
read their lines from there as well.  A word that reads gets the line below its own, and the script
goes on below that line (`CommandLine.script_and_lines_share_input`).
-/

namespace StackScript

namespace Cursor

theorem token_behind_lineFeed {c : Cursor} (h : c.ahead = some 10) :
    c.token = ((ofSource c.source).lower c.location.line).token := by
  have hpending : c.pending = 10 :: c.source.bytes := by
    rw [pending, h]
    rfl
  refine token_congr ?_ ?_ rfl
  · rw [lexeme, hpending, List.dropWhile_cons_of_pos rfl]
    rfl
  · rw [tokenStart, hpending, List.takeWhile_cons_of_pos rfl, Location.afterAll_cons,
      Location.after_lineFeed]
    rfl

theorem token_read {c : Cursor} (hfailure : c.source.failure = none)
    (hblank : c.pending.dropWhile isBlank = []) (more : List UInt8) :
    (c.followedBy (Utf8.encode "read" ++ 10 :: more)).token =
      (.ok ⟨c.location.afterAll c.pending, .call "read"⟩,
        { source := .ofBytes more, ahead := some 10,
          location := (c.location.afterAll c.pending).afterAll (Utf8.encode "read") }) := by
  let line : Cursor := c.followedBy (Utf8.encode "read" ++ 10 :: more)
  have hstart : line.tokenStart = c.location.afterAll c.pending :=
    tokenStart_followedBy_of_blank hblank _
  have hlexeme : line.lexeme =
      ⟨.call (Utf8.encode "read"), Utf8.encode "read", 10 :: more, .blank⟩ :=
    lexeme_followedBy_of_blank hblank _
  have hform : line.lexeme.lexeme.form = .ok (.call "read") := by
    rw [hlexeme]
    rfl
  have htoken := token_of_form (c := line) hfailure hform
  rw [hlexeme] at htoken
  simp only [skip, hstart] at htoken
  rw [htoken]
  simp only [Source.ofBytes, line, followedBy, hfailure]

end Cursor

namespace Machine

variable {m n k m' : Machine} {v : Verdict} {line : String} {rest : List UInt8}

theorem performRead_typed (hline : IsLine line) (hinput : m.console.input = typed line ++ rest) :
    m.performRead = (m.withInput rest).answer (.text line) := by
  rw [performRead, readLine, Console.readLine_typed hline hinput]
  rfl

theorem answer_cases (m : Machine) (value : Value) :
    (∃ n, m.answer value = .done n) ∨ ∃ cause n, m.answer value = .failed cause n := by
  simp only [answer, Stack.answer]
  cases m.stack.push value with
  | ok s => exact .inl ⟨_, rfl⟩
  | error cause => exact .inr ⟨cause, _, rfl⟩

theorem ends_reading_read_iff {c : Cursor} {l : Location} (hfailure : c.source.failure = none)
    (hblank : c.pending.dropWhile isBlank = []) (hl : c.location.afterAll c.pending = l)
    (hname : m.dictionary.action? "read" = some (.primitive .read)) (hline : IsLine line) :
    ((m.withInput (c.source.bytes ++ (Utf8.encode "read" ++ 10 :: (typed line ++ rest)))).reading
        c).Ends v m' ↔
      (∃ n w, (m.withInput rest).answer (.text line) = .done n ∧
        (n.reading (.ofSource (.ofBytes []))).Ends w m' ∧ v = w.lower l.line) ∨
      ∃ cause n, (m.withInput rest).answer (.text line) = .failed cause n ∧
        v = .failed ((Error.ofCause cause).within ⟨l, some "read"⟩) ∧ m' = n.closed := by
  have htoken := Cursor.token_read hfailure hblank (typed line ++ rest)
  rw [← on_withInput (m := m) hfailure, hl] at htoken
  have hperform (input : List UInt8) :
      (Action.primitive .read).perform ((m.withInput input).withInput (typed line ++ rest)) =
        .settled ((m.withInput rest).answer (.text line)) :=
    congrArg Effect.settled (performRead_typed hline rfl)
  rcases answer_cases (m.withInput rest) (.text line) with ⟨n, hn⟩ | ⟨cause, n, hn⟩
  · have hmeaning :=
      meaning_call (m := (m.withInput _).withInput (typed line ++ rest)) (l := l) hname
    rw [hperform, hn] at hmeaning
    have hbelow : (Cursor.on n ⟨.ofBytes (typed line ++ rest), some 10,
          l.afterAll (Utf8.encode "read")⟩).token =
        (((Cursor.ofSource (.ofBytes [])).lower l.line).on n).token :=
      Cursor.token_behind_lineFeed rfl
    rw [ends_reading_of_done htoken (by simp) (ends_obey_of_meaning hmeaning),
      ends_reading_congr hbelow, ends_reading_lower_iff]
    simp [hn]
  · rw [ends_reading_of_failed htoken (by simp)
      (ends_obey_failed (m := withInput _ _) hname ((hperform _).trans (congrArg _ hn)))]
    simp [hn]

theorem answer_opened (m : Machine) (value : Value) :
    m.opened.answer value = (m.answer value).map opened := by
  rw [answer, answer, show m.opened.stack = m.stack from rfl]
  cases m.stack.answer value <;> rfl

theorem exists_executeInput_iff (hm : m.depth < m.maxNesting) (hv : v ≠ .unfinished) :
    (∃ fuel, m.executeInput fuel = (v, m')) ↔
      (m.opened.reading (.ofSource (.ofBytes []))).Ends v m' := by
  have hstart : m.start [] (reader (.ofSource (.ofBytes []))) =
      m.opened.reading (.ofSource (.ofBytes [])) := if_neg (Nat.not_le_of_lt hm)
  rw [← hstart]
  exact (Progress.ends_iff_exists_run hv).symm

theorem exists_executeInput_followedBy {p more : List UInt8} (hm : m.depth < m.maxNesting)
    (hinput : m.console.input = p ++ more) (hmore : more ≠ [])
    (hblank : ∀ b, p.getLast? = some b → isBlank b)
    (htext : ¬ (Cursor.ofSource (.ofBytes p)).EndsInText)
    (hrun : m.SourceEnds (.ofBytes p) .done n) (hkept : n.console.input = m.console.input) :
    ∃ e : Cursor, e.source.failure = none ∧ e.pending.dropWhile isBlank = [] ∧
      e.location.afterAll e.pending = Location.start.afterAll p ∧
      ∀ v m', v ≠ .unfinished → ((∃ fuel, m.executeInput fuel = (v, m')) ↔
        ((n.opened.withInput (e.source.bytes ++ more)).reading e).Ends v m') := by
  have hne : m.console.input ≠ [] := by
    rw [hinput]
    exact List.append_ne_nil_of_right_ne_nil p hmore
  rw [SourceEnds, start, if_neg (Nat.not_le_of_lt hm)] at hrun
  obtain ⟨k, e, hevolves, rfl, hfailure, hend, hplace, hbehind⟩ :=
    exists_reading_followedBy (c := .ofSource (.ofBytes p)) rfl hblank htext hrun hkept hne more
  refine ⟨e, hfailure, hend, hplace, fun v m' hv => ?_⟩
  have hself : m.opened.withInput (p ++ more) = m.opened := by
    rw [← hinput]
    rfl
  have hfirst : (m.opened.reading (.ofSource (.ofBytes []))).Ends v m' ↔
      ((m.opened.withInput (p ++ more)).reading (.ofSource (.ofBytes p))).Ends v m' := by
    rw [hself]
    exact ends_reading_congr rfl
  rw [exists_executeInput_iff hm hv, opened_closed_of_evolves hevolves, hfirst]
  exact hbehind v m'

/-- What a script on the line input comes to that calls a word to read behind a text, if the text
succeeds alone and reads no line: the text is run, the line is pushed, and what stands below the
line is run as a script of its own. -/
theorem exists_executeInput_read_iff {p : List UInt8} (hm : m.depth < m.maxNesting)
    (hinput : m.console.input = p ++ (Utf8.encode "read" ++ 10 :: (typed line ++ rest)))
    (hblank : ∀ b, p.getLast? = some b → isBlank b)
    (htext : ¬ (Cursor.ofSource (.ofBytes p)).EndsInText)
    (hrun : m.SourceEnds (.ofBytes p) .done n) (hkept : n.console.input = m.console.input)
    (hname : n.dictionary.action? "read" = some (.primitive .read)) (hline : IsLine line)
    (hv : v ≠ .unfinished) :
    (∃ fuel, m.executeInput fuel = (v, m')) ↔
      (∃ k w, (n.withInput rest).answer (.text line) = .done k ∧
        (∃ fuel, k.executeInput fuel = (w, m')) ∧ v = w.lower (1 + p.count 10)) ∨
      ∃ cause, (n.withInput rest).answer (.text line) = .failed cause m' ∧
        v = .failed ((Error.ofCause cause).within ⟨Location.start.afterAll p, some "read"⟩) := by
  have hn := hrun.evolves rfl
  obtain ⟨e, hfailure, hend, hplace, hbehind⟩ :=
    exists_executeInput_followedBy hm hinput (by simp) hblank htext hrun hkept
  have hopened : (n.opened.withInput rest).answer (.text line) =
      ((n.withInput rest).answer (.text line)).map opened := answer_opened (n.withInput rest) _
  have hlines : (Location.start.afterAll p).line = 1 + p.count 10 := Location.line_afterAll _ _
  rw [hbehind v m' hv, ends_reading_read_iff (m := n.opened) hfailure hend hplace hname hline,
    hopened, hlines]
  have hevolves := evolves_answer (n.withInput rest) (.text line)
  rcases answer_cases (n.withInput rest) (.text line) with ⟨k, hk⟩ | ⟨cause, k, hk⟩
  · rw [hk] at hevolves
    have hdepth : k.depth < k.maxNesting := by
      have hkdepth : k.depth = m.depth := hevolves.depth.trans hn.depth
      have hkmax : k.maxNesting = m.maxNesting := hevolves.maxNesting.trans hn.maxNesting
      rwa [hkdepth, hkmax]
    have hw {w : Verdict} (h : v = w.lower (1 + p.count 10)) :
        (k.opened.reading (.ofSource (.ofBytes []))).Ends w m' ↔
          ∃ fuel, k.executeInput fuel = (w, m') := by
      refine (exists_executeInput_iff hdepth ?_).symm
      rintro rfl
      exact hv h
    rw [hk]
    constructor
    · rintro (⟨n, w, ⟨⟩, hrest, h⟩ | ⟨cause, n, ⟨⟩, -⟩)
      exact .inl ⟨k, w, rfl, (hw h).mp hrest, h⟩
    · rintro (⟨n, w, ⟨⟩, hrest, h⟩ | ⟨cause, ⟨⟩, -⟩)
      exact .inl ⟨k.opened, w, rfl, (hw h).mpr hrest, h⟩
  · rw [hk]
    constructor
    · rintro (⟨n, w, ⟨⟩, -⟩ | ⟨cause, n, ⟨⟩, h, rfl⟩)
      exact .inr ⟨cause, rfl, h⟩
    · rintro (⟨n, w, ⟨⟩, -⟩ | ⟨cause, ⟨⟩, h⟩)
      exact .inr ⟨cause, _, rfl, h, rfl⟩

theorem console_full {s : Settings} {fuel : Nat} (h : full fuel s = (.done, m)) :
    m.console = s.console := by
  let wide : Settings := { s with capacity := (bare s).stack.capacity + 2 }
  have hbare : (bare s).withCapacity ((bare s).stack.capacity + 2) = bare wide := rfl
  have hrun := evaluate_of_capacity_le h (by simp) (by simp) (Nat.le_add_right _ 2)
  rw [hbare] at hrun
  obtain ⟨fuel', hfull⟩ := exists_full_eq (s := wide) (Nat.le_add_left _ _) (maxNesting_bare_pos _)
  have hsame := (Progress.ends_of_run hrun (by simp)).unique (Progress.ends_of_run hfull (by simp))
  exact congrArg console hsame.2

end Machine

namespace CommandLine

/-- A program without a file runs the script on its standard input.  Let a first part of the script,
empty or with a blank at its end, succeed alone and read no line, and let a call to read stand
behind it at the end of a line.  Then the script ends as if that part were run, the next line
pushed, and what stands below it run as a script, apart from the outermost place in an error.  In
every run each byte of the line input is taken once and in order, by a token or as part of a line; a
token takes the blanks before it, itself and, if it is a call or a text word, the blank behind
it. -/
theorem script_and_lines_share_input {i : Invocation} {env : Environment} {fuel₀ fuel₁ : Nat}
    {m n : Machine} {p rest : List UInt8} {line : String} (hcommand : i.command = .script none)
    (hfull : Machine.full fuel₀ (i.settings env none) = (.done, m))
    (hinput : env.standardInput = p ++ Utf8.encode "read\n" ++ typed line ++ rest)
    (hline : IsLine line) (hblank : ∀ b, p.getLast? = some b → isBlank b)
    (htext : ¬ (Cursor.ofSource (.ofBytes p)).EndsInText)
    (hrun : m.execute fuel₁ (.ofBytes p) = (.done, n))
    (hkept : n.console.input = m.console.input) :
    (∀ fuel ≥ fuel₀,
      i.run fuel env = Report.ofRun (m.executeInput fuel).2 (m.executeInput fuel).1) ∧
    (∀ v m', v ≠ .unfinished → ((∃ fuel, m.executeInput fuel = (v, m')) ↔
      (∃ k w, (n.withInput rest).answer (.text line) = .done k ∧
        (∃ fuel, k.executeInput fuel = (w, m')) ∧ v = w.lower (1 + p.count 10)) ∨
      ∃ cause, (n.withInput rest).answer (.text line) = .failed cause m' ∧
        v = .failed ((Error.ofCause cause).within ⟨Location.start.afterAll p, some "read"⟩))) ∧
    (∀ (q : Progress) (steps : Nat),
      q.consumed steps ++ (Progress.next^[steps] q).machine.console.input =
        q.machine.console.input) ∧
    ∀ c : Cursor, c.source.failure = none →
      c.scanned ++ c.token.2.source.bytes = c.source.bytes ∧
      c.ahead.toList ++ c.scanned =
        c.pending.takeWhile isBlank ++ c.lexeme.used ++ c.token.2.ahead.toList ∧
      ∀ b, c.token.2.ahead = some b →
        isBlank b ∧ ∃ word, c.lexeme.lexeme = .call word ∨ c.lexeme.lexeme = .textWord word := by
  have hends := Progress.ends_of_run hrun (by simp)
  have hreachable : (Progress.halted .done n).Reachable (i.settings env none) :=
    ⟨m, .full hfull, Progress.later_of_request (r := .execute (.ofBytes p)) rfl hends.later⟩
  have hname : n.dictionary.action? "read" = some (.primitive .read) :=
    hreachable.action?_of_natives rfl
  have hdepth : m.depth < m.maxNesting := by
    have hnew : (Machine.bare (i.settings env none)).SourceEnds _ .done m :=
      Progress.ends_of_run hfull (by simp)
    rw [(hnew.evolves rfl).depth, (hnew.evolves rfl).maxNesting]
    exact Machine.maxNesting_bare_pos _
  have hstart : m.console.input =
      p ++ (Utf8.encode "read" ++ 10 :: (typed line ++ rest)) := by
    rw [Machine.console_full hfull]
    refine hinput.trans ?_
    rw [List.append_assoc, List.append_assoc]
    rfl
  refine ⟨?_, ?_, Progress.consumed_append_input, ?_⟩
  · intro fuel hfuel
    obtain ⟨more, rfl⟩ := Nat.exists_eq_add_of_le hfuel
    have hagain : Machine.full (fuel₀ + more) (i.settings env none) = (.done, m) :=
      Progress.run_add_of_eq hfull (by simp) more
    have hscript : i.startScript (fuel₀ + more) env none =
        .ok (m.start [] (Machine.reader (.ofSource (.ofBytes [])))) := by
      rw [Invocation.startScript, Invocation.start, hagain]
      rfl
    rw [Invocation.run, hcommand]
    dsimp only
    rw [hscript]
    rfl
  · intro v m' hv
    exact Machine.exists_executeInput_read_iff hdepth hstart hblank htext hends hkept hname hline hv
  · intro c hfailure
    have hscanned := Cursor.ahead_append_scanned hfailure
    exact ⟨hscanned.2, hscanned.1, fun b => Cursor.ahead_of_token hfailure⟩

/-- The line that is read fills the last place on the stack, and the script below it writes the
line. -/
theorem line_between_text_word_and_write :
    let i : Invocation := { command := .script none, seed := some 0, capacity := 2 }
    let env : Environment :=
      { standardInput := Utf8.encode "*a read\nb c\nwrite", entropy := 0
        openFile := fun _ => .error noSuchFile, openConnection := fun _ => .error noSuchFile }
    ∃ fuel, (i.run fuel env).exit = 0 ∧ (i.run fuel env).output = Utf8.encode "b c" := by
  intro i env
  obtain ⟨fuel₀, hfull⟩ := Machine.exists_full_eq (s := i.settings env none) (by decide) (by decide)
  let m : Machine := { Machine.bare (i.settings env none) with dictionary := Library.standard }
  let n : Machine := m.withStack ⟨[.text "a"], 1⟩
  let k : Machine := (n.withInput (Utf8.encode "write")).withStack ⟨[.text "b c", .text "a"], 0⟩
  have htext : ¬ (Cursor.ofSource (.ofBytes (Utf8.encode "*a "))).EndsInText := by
    rw [Cursor.endsInText_iff_of_token rfl (by simp), Cursor.endsInText_iff_of_end rfl rfl]
    decide
  have hinput : env.standardInput =
      Utf8.encode "*a " ++ Utf8.encode "read\n" ++ typed "b c" ++ Utf8.encode "write" := rfl
  have hline : IsLine "b c" := by
    constructor <;> decide
  have hblank : ∀ b, (Utf8.encode "*a ").getLast? = some b → isBlank b := by
    intro b hb
    obtain rfl : 32 = b := Option.some.inj hb
    rfl
  have hrun : m.execute 3 (.ofBytes (Utf8.encode "*a ")) = (.done, n) := rfl
  have hlater : (k.executeInput 4).1 = .done ∧
      (k.executeInput 4).2.console.sink.contents = Utf8.encode "b c" := by
    decide
  obtain ⟨hreport, houtcome, -⟩ :=
    script_and_lines_share_input (m := m) rfl hfull hinput hline hblank htext hrun rfl
  obtain ⟨fuel, hrun⟩ := (houtcome .done (k.executeInput 4).2 (by simp)).mpr
    (.inl ⟨k, .done, rfl, ⟨4, Prod.ext hlater.1 rfl⟩, rfl⟩)
  have hlonger : m.executeInput (fuel + fuel₀) = (.done, (k.executeInput 4).2) :=
    Progress.run_add_of_eq hrun (by simp) fuel₀
  refine ⟨fuel + fuel₀, ?_⟩
  rw [hreport _ (Nat.le_add_left _ _), hlonger]
  exact ⟨rfl, hlater.2⟩

end CommandLine

end StackScript
