import Mathlib.Data.Nat.Find
import StackScript.Proofs.TokenRequest
/-!
# Reading on to the end

Each request for a token takes at least one byte, unless it meets the failure behind the source or
finds the source over (`Source.advances`).  So a source comes to its end after as many requests as
it has bytes, and one more for the failure, whatever problems there are on the way, and from then on
it is at its end.
-/

namespace StackScript

namespace Source

/-- What a request brings about, when there have been so many before it. -/
inductive Advances (s : Source) (k : Nat) : Prop
  /-- There are only blanks left, which are taken, and the source is over. -/
  | atEnd (hanswer : s.answer k = .ok ⟨.behind s.bytes, .endOfInput⟩)
      (hblanks : ∀ b ∈ s.taken k, isBlank b = true) (hrest : (s.after (k + 1)).pending = [])
  /-- The failure behind the source is met.  No other request meets one. -/
  | failure (f : Failure) (hfailure : s.failure = some f) (hanswer : s.answer k = .error (.failure f))
      (honce : ∀ j f', s.answer j = .error (.failure f') → j = k)
  | bytes (hanswer : ∀ l, s.answer k ≠ .ok ⟨l, .endOfInput⟩) (htaken : s.taken k ≠ [])

variable {s : Source} {j k : Nat}

private theorem failure_of_answer {f : Failure} (h : s.answer k = .error (.failure f)) :
    (s.after k).source.failure = some f ∧ (s.after (k + 1)).source.failure = none := by
  have hfinds := s.finds_answer k
  rw [h] at hfinds
  generalize s.taken k = bytes at hfinds
  generalize (s.after (k + 1)).source.failure = left at hfinds
  cases hfinds with
  | failure hfailure => exact ⟨hfailure, rfl⟩

private theorem failure_after_eq_none (h : (s.after j).source.failure = none) (hle : j ≤ k) :
    (s.after k).source.failure = none := by
  induction k, hle using Nat.le_induction with
  | base => exact h
  | succ k _ ih =>
    rcases (s.finds_answer k).failure_eq with hleft | hleft
    · exact hleft
    · rw [hleft, ih]

private theorem eq_of_failures {f f' : Failure} (hj : s.answer j = .error (.failure f))
    (hk : s.answer k = .error (.failure f')) : j = k := by
  have hlt {j k : Nat} {f f' : Failure} (hj : s.answer j = .error (.failure f))
      (hk : s.answer k = .error (.failure f')) : ¬ j < k := by
    intro hlt
    have hnone := failure_after_eq_none (failure_of_answer hj).2 hlt
    rw [(failure_of_answer hk).1] at hnone
    cases hnone
  exact Nat.le_antisymm (Nat.le_of_not_lt (hlt hk hj)) (Nat.le_of_not_lt (hlt hj hk))

private theorem over_of_answer {l : Location} (h : s.answer k = .ok ⟨l, .endOfInput⟩) :
    l = .behind s.bytes ∧ (∀ b ∈ s.taken k, isBlank b = true) ∧
      (s.after (k + 1)).pending = [] ∧ (s.after (k + 1)).source.failure = none := by
  have hpending := s.pending_after_succ k
  obtain ⟨hbytes, hlocation⟩ := s.takenUpTo_append_pending k
  have hfinds := s.finds_answer k
  rw [h] at hfinds
  generalize s.taken k = bytes at hfinds hpending
  generalize (s.after (k + 1)).source.failure = left at hfinds
  generalize hresult : (Except.ok ⟨l, .endOfInput⟩ : Except Cause Token) = result at hfinds
  cases hfinds with
  | endOfInput hblanks hfailure =>
    cases hresult
    rw [hlocation, ← Location.behind_append, hbytes]
    exact ⟨rfl, hblanks, List.append_right_eq_self.mp hpending.symm, rfl⟩
  | item _ _ hitem =>
    cases hresult
    cases hitem
  | _ => cases hresult

theorem advances (s : Source) (k : Nat) : s.Advances k := by
  have hfinds := s.finds_answer k
  by_cases hover : ∃ l, s.answer k = .ok ⟨l, .endOfInput⟩
  · obtain ⟨l, hanswer⟩ := hover
    obtain ⟨rfl, hblanks, hrest, -⟩ := over_of_answer hanswer
    exact .atEnd hanswer hblanks hrest
  · rw [not_exists] at hover
    generalize htaken : s.taken k = bytes at hfinds
    generalize (s.after (k + 1)).source.failure = left at hfinds
    generalize hresult : s.answer k = result at hfinds
    cases hfinds with
    | endOfInput => exact absurd hresult (hover _)
    | @failure f hfailure =>
      have hsource := (s.failure_after k).resolve_left (by simp [hfailure])
      exact .failure f (hsource ▸ hfailure) hresult fun j f' hj => eq_of_failures hj hresult
    | item _ _ hitem =>
      obtain ⟨b, more, hbytes, -⟩ := hitem.exists_cons
      exact .bytes hover (by simp [htaken, hbytes])
    | unexpected => exact .bytes hover (by simp [htaken])
    | unclosed hpending => exact .bytes hover (by simp [htaken, hpending])

/-- How many requests there can be before the source is over. -/
private def ahead (s : Source) (k : Nat) : Nat :=
  (s.after k).pending.length + (s.after k).source.failure.toList.length

private theorem ahead_succ_lt (h : ∀ l, s.answer k ≠ .ok ⟨l, .endOfInput⟩) :
    s.ahead (k + 1) < s.ahead k := by
  have hpending := congrArg List.length (s.pending_after_succ k)
  have hleft := (s.finds_answer k).failure_eq
  rw [List.length_append] at hpending
  unfold ahead
  cases s.advances k with
  | atEnd hanswer => exact absurd hanswer (h _)
  | failure f _ hanswer =>
    obtain ⟨hfailure, hnone⟩ := failure_of_answer hanswer
    rw [hfailure, hnone]
    simp only [Option.toList_some, Option.toList_none, List.length_cons, List.length_nil]
    omega
  | bytes _ htaken =>
    have hpos := List.length_pos_iff.mpr htaken
    rcases hleft with hleft | hleft
    · rw [hleft]
      simp only [Option.toList_none, List.length_nil]
      omega
    · rw [hleft]
      omega

private theorem add_ahead_le (h : ∀ j < k, ∀ l, s.answer j ≠ .ok ⟨l, .endOfInput⟩) :
    k + s.ahead k ≤ s.bytes.length + 1 := by
  induction k with
  | zero =>
    have hpending : (s.after 0).pending = s.bytes := rfl
    have hfailure : (s.after 0).source.failure = s.failure := rfl
    rw [ahead, hpending, hfailure]
    cases s.failure <;> simp
  | succ k ih =>
    have hlt := ahead_succ_lt (h k k.lt_succ_self)
    have hle := ih fun j hj => h j (Nat.lt_succ_of_lt hj)
    omega

private theorem answer_of_over (hpending : (s.after k).pending = [])
    (hfailure : (s.after k).source.failure = none) :
    s.answer k = .ok ⟨.behind s.bytes, .endOfInput⟩ := by
  obtain ⟨hbytes, hlocation⟩ := s.takenUpTo_append_pending k
  rw [hpending, List.append_nil] at hbytes
  have hform : (s.after k).lexeme.lexeme.form = .ok .endOfInput := by
    rw [Cursor.lexeme, hpending]
    rfl
  rw [answer, Cursor.token_of_form hfailure hform, Cursor.tokenStart, hpending, hlocation, hbytes]
  rfl

private theorem answer_of_le {l : Location} (h : s.answer j = .ok ⟨l, .endOfInput⟩) (hle : j ≤ k) :
    s.answer k = .ok ⟨.behind s.bytes, .endOfInput⟩ := by
  induction k, hle using Nat.le_induction with
  | base =>
    obtain ⟨rfl, -⟩ := over_of_answer h
    exact h
  | succ k _ ih =>
    obtain ⟨-, -, hpending, hfailure⟩ := over_of_answer ih
    exact answer_of_over hpending hfailure

theorem exists_over (s : Source) :
    ∃ k ≤ s.bytes.length + 1, (∀ j < k, ∀ l, s.answer j ≠ .ok ⟨l, .endOfInput⟩) ∧
      ∀ j ≥ k, s.answer j = .ok ⟨.behind s.bytes, .endOfInput⟩ := by
  have hexists : ∃ k l, s.answer k = .ok ⟨l, .endOfInput⟩ := by
    by_contra hnone
    simp only [not_exists] at hnone
    have hle := add_ahead_le (s := s) (k := s.bytes.length + 2) fun j _ => hnone j
    omega
  classical
  have hfirst (j : Nat) (hj : j < Nat.find hexists) (l : Location) :
      s.answer j ≠ .ok ⟨l, .endOfInput⟩ :=
    not_exists.mp (Nat.find_min hexists hj) l
  obtain ⟨l, hl⟩ := Nat.find_spec hexists
  have hle := add_ahead_le hfirst
  exact ⟨_, by omega, hfirst, fun j hj => answer_of_le hl hj⟩

end Source

theorem Cursor.exists_tokens_eq (c : Cursor) :
    ∃ ts : List Token, ts.length ≤ c.pending.length ∧ (∀ t ∈ ts, t.form ≠ .endOfInput) ∧
      (∀ k (hk : k < ts.length), (forth^[k] c).token.1 = .ok ts[k]) ∧
      ((∃ t, t.form = .endOfInput ∧ (forth^[ts.length] c).token.1 = .ok t ∧
          c.tokens = (ts ++ [t], none)) ∨
        ∃ cause, (forth^[ts.length] c).token.1 = .error cause ∧ c.tokens = (ts, some cause)) := by
  induction c using token_induction with
  | step c ih =>
    rcases htoken : c.token with ⟨result, after⟩
    have hresult : c.token.1 = result := by rw [htoken]
    have hforth : c.forth = after := by rw [forth, htoken]
    cases result with
    | error cause =>
      exact ⟨[], Nat.zero_le _, by simp, by simp, .inr ⟨cause, hresult, tokens_of_error htoken⟩⟩
    | ok t =>
      by_cases ht : t.form = .endOfInput
      · exact ⟨[], Nat.zero_le _, by simp, by simp, .inl ⟨t, ht, hresult, tokens_of_end htoken ht⟩⟩
      · obtain ⟨ts, hlength, hforms, hanswers, hend⟩ := ih t after htoken ht
        have hshorter := length_pending_lt_of_token htoken ht
        refine ⟨t :: ts, ?_, ?_, ?_, ?_⟩
        · rw [List.length_cons]
          omega
        · exact List.forall_mem_cons.mpr ⟨ht, hforms⟩
        · intro k hk
          cases k with
          | zero => exact hresult
          | succ k =>
            rw [Function.iterate_succ_apply, hforth]
            exact hanswers k (Nat.lt_of_succ_lt_succ hk)
        · rw [tokens_of_token htoken ht, List.length_cons, Function.iterate_succ_apply, hforth]
          rcases hend with ⟨u, hu, hlast, htokens⟩ | ⟨cause, hlast, htokens⟩
          · exact .inl ⟨u, hu, hlast, by rw [htokens]; rfl⟩
          · exact .inr ⟨cause, hlast, by rw [htokens]⟩

/-- Requests for tokens take the bytes of a source in their order and each once, and bring it to its
end, which they then find again and again at the same place.  The list of all tokens is what they
come to before the end or the first problem. -/
theorem Source.requests_reach_end (s : Source) :
    (∀ k, (s.after k).Moves (s.taken k) (s.after (k + 1)) ∧
      s.takenUpTo k ++ (s.after k).pending = s.bytes ∧ s.Advances k) ∧
    (∃ k ≤ s.bytes.length + 1, (∀ j < k, ∀ l, s.answer j ≠ .ok ⟨l, .endOfInput⟩) ∧
      ∀ j ≥ k, s.answer j = .ok ⟨.behind s.bytes, .endOfInput⟩) ∧
    ∃ ts : List Token, ts.length ≤ s.bytes.length ∧ (∀ t ∈ ts, t.form ≠ .endOfInput) ∧
      (∀ k (hk : k < ts.length), s.answer k = .ok ts[k]) ∧
      ((s.answer ts.length = .ok ⟨.behind s.bytes, .endOfInput⟩ ∧
          s.tokens = .ok (ts ++ [⟨.behind s.bytes, .endOfInput⟩])) ∨
        ∃ cause, s.answer ts.length = .error cause ∧ s.tokens = .error cause) := by
  refine ⟨?_, s.exists_over, ?_⟩
  · intro k
    rw [after_succ]
    exact ⟨(s.after k).moves_forth, (s.takenUpTo_append_pending k).1, s.advances k⟩
  · obtain ⟨ts, hlength, hforms, hanswers, hend⟩ := (Cursor.ofSource s).exists_tokens_eq
    refine ⟨ts, hlength, hforms, hanswers, ?_⟩
    rcases hend with ⟨⟨l, form⟩, hform, hlast, htokens⟩ | ⟨cause, hlast, htokens⟩
    · obtain rfl : form = .endOfInput := hform
      obtain ⟨rfl, -⟩ := over_of_answer (s := s) hlast
      exact .inl ⟨hlast, tokens_eq_ok_iff.mpr htokens⟩
    · refine .inr ⟨cause, hlast, tokens_eq_error_iff.mpr ?_⟩
      rw [htokens]

end StackScript
