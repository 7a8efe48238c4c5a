import StackScript.Library
import StackScript.Proofs.Reading
import StackScript.Proofs.Run
/-!
# Scripts as lists of tokens

A script is read while it runs.  Nothing that runs in between can tell: it comes to the same as
reading all tokens first and obeying them one after the other, up to the first that does not
succeed, with a problem of reading only behind the tokens before it.
-/

namespace StackScript

/-- How a text ends whose tokens have all succeeded: with the problem behind them, if any, as it
is. -/
def Verdict.behind : Option Cause → Verdict
  | none => .done
  | some cause => .failed (.ofCause cause)

namespace Machine

/-- The tokens succeed one after the other, the last one in the machine `n`. -/
def Obeys (m : Machine) : List Token → Machine → Prop
  | [], n => m = n
  | t :: ts, n => ∃ k, (m.obey [] t).Ends .done k ∧ k.Obeys ts n

/-- A text that is running and consists of the tokens and the problem behind them ends with the
given verdict.  Either all tokens succeed, or a first one does not: then its verdict is that of the
text, and the tokens after it do not matter.  A text that returns is no longer running. -/
def TokensEnd (m : Machine) (tokens : List Token) (problem : Option Cause) (v : Verdict)
    (m' : Machine) : Prop :=
  (∃ n, m.Obeys tokens n ∧ v = .behind problem ∧ m' = n.closed) ∨
    ∃ before t after n k, tokens = before ++ t :: after ∧ m.Obeys before n ∧
      (n.obey [] t).Ends v k ∧ v ≠ .done ∧ m' = if v.returns then k.closed else k

theorem tokensEnd_nil_iff {m m' : Machine} {problem : Option Cause} {v : Verdict} :
    m.TokensEnd [] problem v m' ↔ v = .behind problem ∧ m' = m.closed := by
  constructor
  · rintro (⟨n, rfl, hv, hm⟩ | ⟨before, t, after, n, k, htokens, -⟩)
    · exact ⟨hv, hm⟩
    · exact absurd htokens (by simp)
  · rintro ⟨hv, hm⟩
    exact .inl ⟨m, rfl, hv, hm⟩

theorem tokensEnd_cons_iff {m m' : Machine} {t : Token} {ts : List Token} {problem : Option Cause}
    {v : Verdict} :
    m.TokensEnd (t :: ts) problem v m' ↔
      (∃ n, (m.obey [] t).Ends .done n ∧ n.TokensEnd ts problem v m') ∨
        ∃ k, (m.obey [] t).Ends v k ∧ v ≠ .done ∧ m' = if v.returns then k.closed else k := by
  constructor
  · rintro (⟨n, ⟨k, hk, hn⟩, hv, hm⟩ | ⟨before, t', after, n, k, htokens, hn, hk, hv, hm⟩)
    · exact .inl ⟨k, hk, .inl ⟨n, hn, hv, hm⟩⟩
    · cases before with
      | nil =>
        obtain ⟨rfl, rfl⟩ := List.cons.inj htokens
        cases hn
        exact .inr ⟨k, hk, hv, hm⟩
      | cons s before =>
        obtain ⟨rfl, rfl⟩ := List.cons.inj htokens
        obtain ⟨l, hl, hn⟩ := hn
        exact .inl ⟨l, hl, .inr ⟨before, t', after, n, k, rfl, hn, hk, hv, hm⟩⟩
  · rintro (⟨l, hl, ⟨n, hn, hv, hm⟩ | ⟨before, t', after, n, k, rfl, hn, hk, hv, hm⟩⟩ |
      ⟨k, hk, hv, hm⟩)
    · exact .inl ⟨n, ⟨l, hl, hn⟩, hv, hm⟩
    · exact .inr ⟨t :: before, t', after, n, k, rfl, ⟨l, hl, hn⟩, hk, hv, hm⟩
    · exact .inr ⟨[], t, ts, m, k, rfl, rfl, hk, hv, hm⟩

end Machine

namespace Progress

theorem ends_raising_outer_iff {e : Error} {m m' : Machine} {v : Verdict} {c : Cursor}
    {shared : Bool} :
    (raising e m [{ entry := .outer, cursor := c, shared }]).Ends v m' ↔
      v = .failed e ∧ m' = m.closed := by
  rw [← ends_next_iff, ← ends_next_iff]
  have hhalted : (raising e m [{ entry := .outer, cursor := c, shared }]).next.next =
      halted (.failed e) m.closed := rfl
  rw [hhalted, ends_halted_iff, eq_comm, @eq_comm _ m.closed]

theorem ends_running_nil_iff {m m' : Machine} {v : Verdict} :
    (running m []).Ends v m' ↔ v = .done ∧ m' = m := by
  rw [← ends_next_iff]
  have hhalted : (running m []).next = halted .done m := rfl
  rw [hhalted, ends_halted_iff, eq_comm, @eq_comm _ m]

theorem ends_above_outer_iff {w v : Verdict} {n m' : Machine} {c : Cursor} {shared : Bool}
    (hw : w ≠ .done) :
    ((halted w n).above [{ entry := .outer, cursor := c, shared }]).Ends v m' ↔
      w = v ∧ m' = if w.returns then n.closed else n := by
  cases w with
  | done => exact absurd rfl hw
  | failed e =>
    rw [above, ends_raising_outer_iff, eq_comm]
    rfl
  | aborted fault =>
    rw [above, ends_halted_iff, @eq_comm _ n]
    rfl
  | unfinished =>
    rw [above, ends_halted_iff, @eq_comm _ n]
    rfl

theorem tokensEnd_endOfInput_iff {m m' : Machine} {t : Token} {v : Verdict}
    (ht : t.form = .endOfInput) : m.TokensEnd [t] none v m' ↔ v = .done ∧ m' = m.closed := by
  have hobey : m.obey [] t = running m [] := by
    simp only [Machine.obey, Machine.meaning, ht, Machine.proceed]
  simp only [Machine.tokensEnd_cons_iff, hobey, ends_running_nil_iff, Machine.tokensEnd_nil_iff,
    true_and]
  constructor
  · rintro (⟨n, rfl, hv, hm⟩ | ⟨k, ⟨hv, -⟩, hne, -⟩)
    · exact ⟨hv, hm⟩
    · exact absurd hv hne
  · rintro ⟨hv, hm⟩
    exact .inl ⟨m, rfl, hv, hm⟩

theorem ends_running_iff_tokensEnd {v : Verdict} {m m' : Machine} (c : Cursor) :
    (running m [{ entry := .outer, cursor := c }]).Ends v m' ↔
      m.TokensEnd c.tokens.1 c.tokens.2 v m' := by
  induction c using Cursor.token_induction generalizing m with
  | step c ih =>
    rw [← ends_next_iff, next, Machine.step]
    rcases htoken : c.token with ⟨result, after⟩
    have hread : m.token { entry := .outer, cursor := c } =
        (result, { entry := .outer, cursor := after }, m) := by
      simp [Machine.token, htoken]
    rw [hread]
    cases result with
    | error cause =>
      rw [Cursor.tokens_of_error htoken, Machine.tokensEnd_nil_iff, ends_raising_outer_iff]
      rfl
    | ok t =>
      dsimp only
      split
      · rename_i ht
        rw [Cursor.tokens_of_end htoken ht]
        exact ends_running_nil_iff.trans (tokensEnd_endOfInput_iff ht).symm
      · rename_i ht
        rw [Cursor.tokens_of_token htoken ht, Machine.tokensEnd_cons_iff]
        have happend := m.obey_append [] [{ entry := .outer, cursor := after }] t
        rw [List.nil_append] at happend
        rw [happend, ends_above_iff]
        constructor
        · rintro ⟨w, n, hw, hv⟩
          by_cases hdone : w = .done
          · subst hdone
            exact .inl ⟨n, hw, (ih t after htoken ht).mp hv⟩
          · obtain ⟨rfl, hm⟩ := (ends_above_outer_iff hdone).mp hv
            exact .inr ⟨n, hw, hdone, hm⟩
        · rintro (⟨n, hn, hv⟩ | ⟨k, hk, hv, hm⟩)
          · exact ⟨.done, n, hn, (ih t after htoken ht).mpr hv⟩
          · exact ⟨v, k, hk, (ends_above_outer_iff hv).mpr ⟨rfl, hm⟩⟩

end Progress

namespace Machine

/-- A source that is read while it runs ends exactly as the list of its tokens does, obeyed one
after the other, and leaves the same machine. -/
theorem execute_iff_tokensEnd {m : Machine} (hm : m.depth < m.maxNesting) (source : Source)
    {v : Verdict} (hv : v ≠ .unfinished) (m' : Machine) :
    (∃ fuel, m.execute fuel source = (v, m')) ↔
      m.opened.TokensEnd (Cursor.ofSource source).tokens.1 (Cursor.ofSource source).tokens.2
        v m' := by
  have hstart : m.start [] { entry := .outer, cursor := .ofSource source } =
      .running m.opened [{ entry := .outer, cursor := .ofSource source }] :=
    if_neg (Nat.not_le_of_lt hm)
  rw [← Progress.ends_running_iff_tokensEnd, ← hstart, Progress.ends_iff_exists_run hv]
  rfl

/-- Behind a sum stands a bracket that nothing opened: the sum is formed, and the problem comes out
as it is. -/
theorem problem_behind_sum :
    let m := Machine.bare { capacity := 2 }
    ∃ n : Machine, n.stack.toList = [.integer 5] ∧
      ∃ fuel, m.execute fuel (.ofText "2 3 add ]") =
        (.failed (.ofCause (.malformed (.unexpected Mark.closeBracket) ⟨1, 10⟩)), n) := by
  intro m
  have hm : m.depth < m.maxNesting := by decide
  have htokens : (Cursor.ofSource (.ofText "2 3 add ]")).tokens =
      ([⟨⟨1, 1⟩, .call "2"⟩, ⟨⟨1, 3⟩, .call "3"⟩, ⟨⟨1, 5⟩, .call "add"⟩],
        some (.malformed (.unexpected Mark.closeBracket) ⟨1, 10⟩)) := rfl
  let two := m.opened.withStack { values := [.integer 2], room := 1 }
  let three := m.opened.withStack { values := [.integer 3, .integer 2], room := 0 }
  let five := m.opened.withStack { values := [.integer 5], room := 1 }
  have htwo : (m.opened.obey [] ⟨⟨1, 1⟩, .call "2"⟩).Ends .done two := ⟨1, rfl⟩
  have hthree : (two.obey [] ⟨⟨1, 3⟩, .call "3"⟩).Ends .done three := ⟨1, rfl⟩
  have hfive : (three.obey [] ⟨⟨1, 5⟩, .call "add"⟩).Ends .done five := ⟨1, rfl⟩
  refine ⟨five.closed, rfl, (execute_iff_tokensEnd hm _ (by simp) _).mpr ?_⟩
  rw [htokens]
  exact .inl ⟨five, ⟨two, htwo, three, hthree, five, hfive, rfl⟩, rfl, rfl⟩

end Machine

end StackScript
