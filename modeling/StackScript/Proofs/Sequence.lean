import StackScript.Proofs.JoinedSource
import StackScript.Proofs.WordCall
/-!
# One source after the other

Two sources on lines of their own do in one run what they do one after the other, if the first one
is readable and does not end inside a text.  Only the places in the second source are further down,
and of them an error shows the outermost one: texts that are run inside count their own lines.
-/

namespace StackScript

def Layer.lower (lines : Nat) (l : Layer) : Layer := { l with location := l.location.lower lines }

/-- The error of a text some lines further down, in which its outermost place is the only one. -/
def Error.lower (lines : Nat) (e : Error) : Error :=
  match e.layers with
  | [] => { e with cause := e.cause.lower lines }
  | l :: inner => { e with layers := l.lower lines :: inner }

namespace Verdict

def lower (lines : Nat) : Verdict → Verdict
  | .done => .done
  | .failed e => .failed (e.lower lines)
  | .aborted fault => .aborted fault
  | .unfinished => .unfinished

theorem lower_eq_done_iff {lines : Nat} {v : Verdict} : v.lower lines = .done ↔ v = .done := by
  cases v <;> simp [lower]

theorem returns_lower (lines : Nat) (v : Verdict) : (v.lower lines).returns = v.returns := by
  cases v <;> rfl

theorem lower_behind (lines : Nat) (problem : Option Cause) :
    (behind problem).lower lines = behind (problem.map (Cause.lower lines)) := by
  cases problem <;> rfl

theorem lower_within (lines : Nat) (layer : Layer) (v : Verdict) :
    (v.within layer).lower lines = v.within (layer.lower lines) := by
  cases v <;> rfl

end Verdict

namespace Machine

variable {m m' n : Machine} {v : Verdict}

theorem meaning_lower (lines : Nat) (m : Machine) (t : Token) :
    m.meaning (t.lower lines) = ((m.meaning t).1.lower lines, (m.meaning t).2) := by
  obtain ⟨location, form⟩ := t
  cases form with
  | call name =>
    simp only [meaning, Token.lower]
    cases m.dictionary.find? name <;> rfl
  | endOfInput => rfl
  | comment text => rfl
  | quotation code => rfl
  | text text => rfl
  | textWord text => rfl

theorem ends_obey_lower_iff {lines : Nat} {t : Token} :
    (m.obey [] (t.lower lines)).Ends v n ↔
      ∃ w, (m.obey [] t).Ends w n ∧ v = w.lower lines := by
  simp only [obey, meaning_lower, ends_proceed_iff]
  constructor
  · rintro ⟨last, w, hturns, hconcludes, rfl⟩
    exact ⟨_, ⟨last, w, hturns, hconcludes, rfl⟩, (w.lower_within lines _).symm⟩
  · rintro ⟨_, ⟨last, w, hturns, hconcludes, rfl⟩, rfl⟩
    exact ⟨last, w, hturns, hconcludes, w.lower_within lines _⟩

theorem tokensEnd_lower_iff {lines : Nat} {ts : List Token} {problem : Option Cause} :
    m.TokensEnd (ts.map (Token.lower lines)) (problem.map (Cause.lower lines)) v m' ↔
      ∃ w, m.TokensEnd ts problem w m' ∧ v = w.lower lines := by
  induction ts generalizing m with
  | nil =>
    simp only [List.map_nil, tokensEnd_nil_iff, ← Verdict.lower_behind]
    constructor
    · rintro ⟨hv, hm⟩
      exact ⟨_, ⟨rfl, hm⟩, hv⟩
    · rintro ⟨w, ⟨rfl, hm⟩, hv⟩
      exact ⟨hv, hm⟩
  | cons t ts ih =>
    simp only [List.map_cons, tokensEnd_cons_iff, ends_obey_lower_iff, ih]
    constructor
    · rintro (⟨n, ⟨u, hobey, hu⟩, w, hrest, rfl⟩ | ⟨k, ⟨w, hobey, rfl⟩, hw, hm⟩)
      · obtain rfl := Verdict.lower_eq_done_iff.mp hu.symm
        exact ⟨w, .inl ⟨n, hobey, hrest⟩, rfl⟩
      · rw [Verdict.returns_lower] at hm
        exact ⟨w, .inr ⟨k, hobey, mt Verdict.lower_eq_done_iff.mpr hw, hm⟩, rfl⟩
    · rintro ⟨w, ⟨n, hobey, hrest⟩ | ⟨k, hobey, hw, hm⟩, rfl⟩
      · exact .inl ⟨n, ⟨.done, hobey, rfl⟩, w, hrest, rfl⟩
      · rw [← Verdict.returns_lower lines] at hm
        exact .inr ⟨k, ⟨w, hobey, rfl⟩, mt Verdict.lower_eq_done_iff.mp hw, hm⟩

theorem tokensEnd_append_iff {ts us : List Token} {problem : Option Cause} :
    m.TokensEnd (ts ++ us) problem v m' ↔
      (v ≠ .done ∧ m.TokensEnd ts none v m') ∨
        ∃ n, m.Obeys ts n ∧ n.TokensEnd us problem v m' := by
  induction ts generalizing m with
  | nil =>
    simp only [List.nil_append, tokensEnd_nil_iff, Obeys]
    constructor
    · intro h
      exact .inr ⟨m, rfl, h⟩
    · rintro (⟨hv, hdone, -⟩ | ⟨n, rfl, h⟩)
      · exact absurd hdone hv
      · exact h
  | cons t ts ih =>
    simp only [List.cons_append, tokensEnd_cons_iff, ih, Obeys]
    constructor
    · rintro (⟨n, hobey, ⟨hv, hrest⟩ | ⟨k, hts, hrest⟩⟩ | ⟨k, hobey, hv, hm⟩)
      · exact .inl ⟨hv, .inl ⟨n, hobey, hrest⟩⟩
      · exact .inr ⟨k, ⟨n, hobey, hts⟩, hrest⟩
      · exact .inl ⟨hv, .inr ⟨k, hobey, hv, hm⟩⟩
    · rintro (⟨hv, ⟨n, hobey, hrest⟩ | ⟨k, hobey, -, hm⟩⟩ | ⟨k, ⟨n, hobey, hts⟩, hrest⟩)
      · exact .inl ⟨n, hobey, .inl ⟨hv, hrest⟩⟩
      · exact .inr ⟨k, hobey, hv, hm⟩
      · exact .inl ⟨n, hobey, .inr ⟨k, hts, hrest⟩⟩

theorem opened_closed_of_evolves (h : m.opened.Evolves n) : n.closed.opened = n := by
  have hdepth : n.depth - 1 + 1 = n.depth := by
    rw [h.depth]
    rfl
  simp only [opened, closed, hdepth]

private theorem tokensEnd_end_iff {ts : List Token} {last : Token}
    (hlast : last.form = .endOfInput) :
    m.TokensEnd (ts ++ [last]) none v m' ↔
      (v ≠ .done ∧ m.TokensEnd ts none v m') ∨ ∃ n, m.Obeys ts n ∧ v = .done ∧ m' = n.closed := by
  simp only [tokensEnd_append_iff, Progress.tokensEnd_endOfInput_iff hlast]

private theorem tokens_joined {first : List UInt8} {tokens : List Token}
    (hread : (Source.ofBytes first).tokens = .ok tokens)
    (htext : ¬ (Cursor.ofSource (.ofBytes first)).EndsInText) (second : List UInt8) :
    ∃ ts last, last.form = .endOfInput ∧
      (Cursor.ofSource (.ofBytes first)).tokens = (ts ++ [last], none) ∧
      (Cursor.ofSource (.ofBytes (first ++ 10 :: second))).tokens =
        (ts ++ (Cursor.ofSource (.ofBytes second)).tokens.1.map
            (Token.lower (1 + first.count 10)),
          (Cursor.ofSource (.ofBytes second)).tokens.2.map (Cause.lower (1 + first.count 10))) := by
  have hproblem : (Cursor.ofSource (.ofBytes first)).tokens.2 = none := by
    rw [Source.tokens_eq_ok_iff.mp hread]
  obtain ⟨ts, last, hlast, htokens, hjoined⟩ :=
    Cursor.exists_tokens_followedBy rfl hproblem htext second
  have hline : ((Cursor.ofSource (.ofBytes first)).location.afterAll
      (Cursor.ofSource (.ofBytes first)).pending).line = 1 + first.count 10 :=
    Location.start.line_afterAll first
  rw [hline, Cursor.tokens_lower] at hjoined
  exact ⟨ts, last, hlast, Prod.ext htokens hproblem, hjoined⟩

private theorem sourceEnds_joined_iff {first second : List UInt8} {tokens : List Token}
    (hread : (Source.ofBytes first).tokens = .ok tokens)
    (htext : ¬ (Cursor.ofSource (.ofBytes first)).EndsInText) :
    m.SourceEnds (.ofBytes (first ++ 10 :: second)) v m' ↔
      (v ≠ .done ∧ m.SourceEnds (.ofBytes first) v m') ∨
        ∃ n w, m.SourceEnds (.ofBytes first) .done n ∧ n.SourceEnds (.ofBytes second) w m' ∧
          v = w.lower (1 + first.count 10) := by
  by_cases hm : m.depth < m.maxNesting
  · obtain ⟨ts, last, hlast, hfirst, hjoined⟩ := tokens_joined hread htext second
    have hsecond {k n : Machine} (hk : m.opened.Obeys ts k) (hn : n = k.closed) (w : Verdict) :
        n.SourceEnds (.ofBytes second) w m' ↔
          k.TokensEnd (Cursor.ofSource (.ofBytes second)).tokens.1
            (Cursor.ofSource (.ofBytes second)).tokens.2 w m' := by
      have hdepth : k.closed.depth < k.closed.maxNesting := by
        have hk' : k.depth = m.depth + 1 := hk.evolves.depth
        have hlimit : k.maxNesting = m.maxNesting := hk.evolves.maxNesting
        simp only [closed]
        omega
      rw [hn, sourceEnds_iff_tokensEnd hdepth, opened_closed_of_evolves hk.evolves]
    simp only [sourceEnds_iff_tokensEnd hm, hfirst, hjoined, tokensEnd_end_iff hlast,
      tokensEnd_append_iff, tokensEnd_lower_iff]
    constructor
    · rintro (⟨hv, hfails⟩ | ⟨k, hk, w, hrest, rfl⟩)
      · exact .inl ⟨hv, .inl ⟨hv, hfails⟩⟩
      · exact .inr ⟨k.closed, w, .inr ⟨k, hk, trivial, rfl⟩, (hsecond hk rfl w).mpr hrest, rfl⟩
    · rintro (⟨hv, ⟨-, hfails⟩ | ⟨k, -, hdone, -⟩⟩ | ⟨n, w, ⟨hne, -⟩ | ⟨k, hk, -, hn⟩, hrest, rfl⟩)
      · exact .inl ⟨hv, hfails⟩
      · exact absurd hdone hv
      · exact absurd rfl hne
      · exact .inr ⟨k, hk, w, (hsecond hk hn w).mp hrest, rfl⟩
  · have hle : m.maxNesting ≤ m.depth := Nat.le_of_not_lt hm
    simp only [sourceEnds_iff_of_le hle]
    constructor
    · rintro ⟨rfl, rfl⟩
      exact .inl ⟨by simp, rfl, rfl⟩
    · rintro (⟨-, hends⟩ | ⟨n, w, ⟨hdone, -⟩, -⟩)
      · exact hends
      · cases hdone

/-- Two sources with a line feed between them, run as one, end as the first one and then, if it has
succeeded, the second one, and leave the same machine.  An error of the first one comes out as it
is; in an error of the second one the outermost place is further down by the line feed and those in
the first one. -/
theorem execute_joined {first second : List UInt8} {tokens : List Token}
    (hread : (Source.ofBytes first).tokens = .ok tokens)
    (htext : ¬ (Cursor.ofSource (.ofBytes first)).EndsInText) (m : Machine) {v : Verdict}
    (hv : v ≠ .unfinished) (m' : Machine) :
    (∃ fuel, m.execute fuel (.ofBytes (first ++ 10 :: second)) = (v, m')) ↔
      (v ≠ .done ∧ ∃ fuel, m.execute fuel (.ofBytes first) = (v, m')) ∨
        ∃ n w, (∃ fuel, m.execute fuel (.ofBytes first) = (.done, n)) ∧
          (∃ fuel, n.execute fuel (.ofBytes second) = (w, m')) ∧
          v = w.lower (1 + first.count 10) := by
  have hdone : Verdict.done ≠ .unfinished := by simp
  rw [← sourceEnds_iff_exists_execute hv, ← sourceEnds_iff_exists_execute hv,
    sourceEnds_joined_iff hread htext]
  simp only [← sourceEnds_iff_exists_execute hdone]
  refine or_congr_right (exists_congr fun n => exists_congr fun w => and_congr_right fun _ => ?_)
  refine and_congr_left fun hw => sourceEnds_iff_exists_execute ?_
  rintro rfl
  exact hv hw

/-- A word is defined and called, and what it leaves is written on the next line, behind which
stands a name without a meaning. -/
theorem unknown_word_behind_output :
    let m := Machine.bare { capacity := 2 }
    ∃ n : Machine, n.stack.toList = [] ∧ n.console.sink.contents = Utf8.encode "2" ∧
      n.dictionary.find? "two" = some (Word.scripted "two" "2") ∧
      ∃ fuel, m.execute fuel
          (.ofBytes (Utf8.encode "*two [2] define\ntwo" ++ 10 :: Utf8.encode "print three")) =
        (.failed ((Error.ofCause (.unknownWord "three")).within ⟨⟨3, 7⟩, none⟩), n) := by
  intro m
  let dictionary : Dictionary := { words := Word.scripted "two" "2" :: m.dictionary.words }
  let k : Machine := { m with dictionary, stack := { values := [.integer 2], room := 1 } }
  let n : Machine := { m with dictionary, console := { sink := { written := [50] } } }
  have hread : (Source.ofBytes (Utf8.encode "*two [2] define\ntwo")).tokens =
      .ok [⟨⟨1, 1⟩, .textWord "two"⟩, ⟨⟨1, 6⟩, .quotation "2"⟩, ⟨⟨1, 10⟩, .call "define"⟩,
        ⟨⟨2, 1⟩, .call "two"⟩, ⟨⟨2, 4⟩, .endOfInput⟩] := by
    rfl
  have htext : ¬ (Cursor.ofSource (.ofBytes (Utf8.encode "*two [2] define\ntwo"))).EndsInText := by
    rw [Cursor.endsInText_iff_of_token rfl (by simp), Cursor.endsInText_iff_of_token rfl (by simp),
      Cursor.endsInText_iff_of_token rfl (by simp), Cursor.endsInText_iff_of_token rfl (by simp),
      Cursor.endsInText_iff_of_end rfl rfl]
    decide
  have hfirst : m.execute 8 (.ofBytes (Utf8.encode "*two [2] define\ntwo")) = (.done, k) := by
    rfl
  have hsecond : k.execute 4 (.ofBytes (Utf8.encode "print three")) =
      (.failed ((Error.ofCause (.unknownWord "three")).within ⟨⟨1, 7⟩, none⟩), n) := by
    rfl
  refine ⟨n, rfl, rfl, rfl, (execute_joined hread htext m (by simp) n).mpr (.inr ?_)⟩
  exact ⟨k, _, ⟨_, hfirst⟩, ⟨_, hsecond⟩, rfl⟩

end Machine

end StackScript
