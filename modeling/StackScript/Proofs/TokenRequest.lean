import Mathlib.Logic.Function.Iterate
import StackScript.Proofs.Grammar
import StackScript.Proofs.StreamReading
/-!
# Asking for one token after the other

Tokens can be asked for again and again, also behind a problem and behind the end of the source.
`Cursor.Finds` lists what a single request can come to, with the bytes that it takes, and
`Cursor.finds_token` says that this is all.  A request gets at its bytes only by looking at the next
byte and by taking it (`Cursor.moves_forth`).  From this follows where the cursor stands after any
number of requests: behind a first part of the source, which it has gone through once
(`Source.takenUpTo_append_pending`).
-/

namespace StackScript

namespace Lexeme

variable {bs : List UInt8} {b : UInt8}

theorem cut_of_startsNothing (hb : isVisible b = false ∨ b = Mark.closeBracket)
    (rest : List UInt8) : cut (b :: rest) = ⟨.unexpected b, [b], rest, .complete⟩ := by
  have hmark (mark : UInt8) (hvisible : isVisible mark = true) (hne : mark ≠ Mark.closeBracket) :
      b ≠ mark := by
    rintro rfl
    rcases hb with hb | hb
    · rw [hvisible] at hb
      cases hb
    · exact hne hb
  have hcall : (isVisible b && b ≠ Mark.closeBracket) = false := by
    rcases hb with hb | hb <;> simp [hb]
  rw [cut, if_neg (hmark _ rfl (by decide)), if_neg (hmark _ rfl (by decide)),
    if_neg (hmark _ rfl (by decide)), if_neg (hmark _ rfl (by decide)), hcall]
  rfl

/-- The marks around a quotation and around a comment. -/
def Encloses (opening closing : UInt8) : Prop :=
  (opening, closing) ∈ [(Mark.openBracket, Mark.closeBracket),
    (Mark.openParenthesis, Mark.closeParenthesis)]

theorem Encloses.ne {opening closing : UInt8} (h : Encloses opening closing) :
    opening ≠ closing := by
  simp only [Encloses, List.mem_cons, List.not_mem_nil, or_false, Prod.mk.injEq] at h
  obtain ⟨rfl, rfl⟩ | ⟨rfl, rfl⟩ := h <;> decide

private theorem problem_of_cutEnclosed {kind : List UInt8 → Lexeme} (sort : List UInt8 → Form)
    {opening closing : UInt8} {rest : List UInt8} {problem : Problem}
    (hkind : ∀ body, (kind body).form = .ok (sort body)) (hmarks : opening ≠ closing)
    (h : (cutEnclosed kind opening closing rest).lexeme.form = .error problem) :
    problem = .unclosed closing ∧
      (∀ body after, Balanced opening closing body → rest ≠ body ++ closing :: after) ∧
      cutEnclosed kind opening closing rest = ⟨.unclosed closing, opening :: rest, [], .source⟩ := by
  cases hfound : enclosed opening closing 0 rest with
  | some found =>
    rw [cutEnclosed, hfound, hkind] at h
    cases h
  | none =>
    rw [cutEnclosed, hfound] at h ⊢
    cases h
    refine ⟨rfl, ?_, rfl⟩
    rintro body after hbody rfl
    rw [hbody.enclosed_eq hmarks] at hfound
    cases hfound

theorem problem_of_cut {problem : Problem} (h : (cut bs).lexeme.form = .error problem) :
    (∃ b rest, bs = b :: rest ∧ problem = .unexpected b ∧
      (isVisible b = false ∨ b = Mark.closeBracket)) ∨
    ∃ opening closing rest, bs = opening :: rest ∧ Encloses opening closing ∧
      problem = .unclosed closing ∧
      (∀ body after, Balanced opening closing body → rest ≠ body ++ closing :: after) ∧
      cut bs = ⟨.unclosed closing, bs, [], .source⟩ := by
  revert h
  fun_cases cut bs with
  | case1 =>
    intro h
    cases h
  | case2 rest =>
    intro h
    obtain ⟨hproblem, hopen, hcut⟩ :=
      problem_of_cutEnclosed (fun body => .quotation (Utf8.decodeLossy body))
        (fun _ => rfl) (by decide) h
    exact .inr ⟨_, _, rest, rfl, by simp [Encloses], hproblem, hopen, hcut⟩
  | case3 rest =>
    intro h
    obtain ⟨hproblem, hopen, hcut⟩ :=
      problem_of_cutEnclosed (fun body => .comment (Utf8.decodeLossy body))
        (fun _ => rfl) (by decide) h
    exact .inr ⟨_, _, rest, rfl, by simp [Encloses], hproblem, hopen, hcut⟩
  | case4 rest =>
    unfold cutText
    split <;> intro h <;> cases h
  | case5 rest =>
    intro h
    cases h
  | case6 b rest =>
    intro h
    cases h
  | case7 b rest hbracket hparenthesis hquote hstar hvisible =>
    intro h
    cases h
    refine .inl ⟨b, rest, rfl, rfl, ?_⟩
    simpa [or_iff_not_imp_left] using hvisible

end Lexeme

namespace Cursor

/-- The cursor gets from one place to another by looks at the next byte and by taking it, and these
are the bytes that it takes. -/
inductive Moves : Cursor → List UInt8 → Cursor → Prop
  | stay {c : Cursor} : Moves c [] c
  | look {c after : Cursor} {bytes : List UInt8} (h : Moves c.peek.2 bytes after) :
      Moves c bytes after
  | take {c after : Cursor} {b : UInt8} {bytes : List UInt8} (hb : c.next.1 = .ok (some b))
      (h : Moves c.next.2 bytes after) : Moves c (b :: bytes) after
  /-- There is no byte to be taken. -/
  | miss {c after : Cursor} {bytes : List UInt8} (hnone : ∀ b, c.next.1 ≠ .ok (some b))
      (h : Moves c.next.2 bytes after) : Moves c bytes after

variable {c after : Cursor} {bytes rest : List UInt8}

theorem Moves.trans {mid : Cursor} {more : List UInt8} (h : Moves c bytes mid)
    (h' : Moves mid more after) : Moves c (bytes ++ more) after := by
  induction h with
  | stay => exact h'
  | look _ ih => exact .look (ih h')
  | take hb _ ih => exact .take hb (ih h')
  | miss hnone _ ih => exact .miss hnone (ih h')

theorem pending_peek (c : Cursor) :
    c.peek.2.pending = c.pending ∧ c.peek.2.location = c.location := by
  obtain ⟨⟨bytes, failure⟩, ahead, location⟩ := c
  cases ahead with
  | some b => exact ⟨rfl, rfl⟩
  | none =>
    cases bytes with
    | cons b bytes => exact ⟨rfl, rfl⟩
    | nil => cases failure <;> exact ⟨rfl, rfl⟩

theorem next_of_pending_eq_cons {b : UInt8} (h : c.pending = b :: rest) :
    c.next = (.ok (some b), ⟨⟨rest, c.source.failure⟩, none, c.location.after b⟩) := by
  obtain ⟨⟨bytes, failure⟩, ahead, location⟩ := c
  cases ahead with
  | some a =>
    obtain ⟨rfl, rfl⟩ := List.cons.inj h
    rfl
  | none =>
    cases bytes with
    | nil => cases h
    | cons a bytes =>
      obtain ⟨rfl, rfl⟩ := List.cons.inj h
      rfl

theorem next_of_pending_eq_nil (h : c.pending = []) :
    c.next = (match c.source.failure with
      | some f => .error f
      | none => .ok none, ⟨⟨[], none⟩, none, c.location⟩) := by
  obtain ⟨⟨bytes, failure⟩, ahead, location⟩ := c
  obtain ⟨hahead, rfl⟩ := List.append_eq_nil_iff.mp h
  cases ahead with
  | some a => cases hahead
  | none => cases failure <;> rfl

theorem Moves.pending_eq (h : Moves c bytes after) :
    c.pending = bytes ++ after.pending ∧ after.location = c.location.afterAll bytes := by
  induction h with
  | stay => exact ⟨rfl, rfl⟩
  | look _ ih => rwa [(pending_peek _).1, (pending_peek _).2] at ih
  | @take c after b bytes hb _ ih =>
    cases hpending : c.pending with
    | nil =>
      rw [next_of_pending_eq_nil hpending] at hb
      cases hfailure : c.source.failure <;> simp [hfailure] at hb
    | cons a rest =>
      rw [next_of_pending_eq_cons hpending] at hb ih
      cases hb
      exact ⟨congrArg (b :: ·) ih.1, ih.2⟩
  | @miss c after bytes hnone _ ih =>
    cases hpending : c.pending with
    | nil =>
      rw [next_of_pending_eq_nil hpending] at ih
      exact ih
    | cons a rest => exact absurd (by rw [next_of_pending_eq_cons hpending]) (hnone a)

private theorem moves_append (hpending : c.pending = bytes ++ rest)
    (hahead : bytes = [] → c.ahead = none) :
    Moves c bytes ⟨⟨rest, c.source.failure⟩, none, c.location.afterAll bytes⟩ := by
  induction bytes generalizing c with
  | nil =>
    obtain ⟨⟨bytes, failure⟩, ahead, location⟩ := c
    obtain rfl : ahead = none := hahead rfl
    obtain rfl : bytes = rest := hpending
    exact .stay
  | cons b bytes ih =>
    have hnext := next_of_pending_eq_cons hpending
    refine .take (by rw [hnext]) ?_
    rw [hnext]
    exact ih (c := ⟨⟨bytes ++ rest, _⟩, none, _⟩) rfl fun _ => rfl

def forth (c : Cursor) : Cursor :=
  c.token.2

/-- The bytes that a request for a token takes: the blanks in front, and those of the lexeme. -/
def taken (c : Cursor) : List UInt8 :=
  c.pending.takeWhile isBlank ++ c.lexeme.used

theorem taken_append_rest (c : Cursor) : c.taken ++ c.lexeme.rest = c.pending := by
  rw [taken, List.append_assoc, lexeme, Lexeme.used_append_rest_cut,
    List.takeWhile_append_dropWhile]

theorem pending_eq_nil_of_taken (h : c.taken = []) : c.pending = [] := by
  obtain ⟨hblanks, hused⟩ := List.append_eq_nil_iff.mp h
  have hrest : c.pending.dropWhile isBlank = [] := by
    by_contra hne
    exact Lexeme.used_cut_ne_nil hne hused
  rw [← List.takeWhile_append_dropWhile (p := isBlank) (l := c.pending), hblanks, hrest]
  rfl

private theorem rest_of_ending_source (h : c.lexeme.ending = .source) : c.lexeme.rest = [] := by
  rcases Lexeme.ending_cut_cases (c.pending.dropWhile isBlank) with
    hcomplete | ⟨hblank, -⟩ | ⟨-, hrest⟩
  · rw [lexeme, hcomplete] at h
    cases h
  · rw [lexeme, hblank] at h
    cases h
  · exact hrest

/-- Unless a failure is in the way, a request tells what the lexeme says, and leads behind it. -/
private theorem token_cases (c : Cursor) :
    (∃ f, c.source.failure = some f ∧ c.lexeme.ending = .source ∧
      c.token = (.error (.failure f), { c.skip c.lexeme with source := { bytes := [] } })) ∨
    (c.source.failure = none ∨ c.lexeme.ending ≠ .source) ∧
      c.token = (match c.lexeme.lexeme.form with
        | .ok form => .ok ⟨c.tokenStart, form⟩
        | .error problem => .error (.malformed problem (c.skip c.lexeme).location),
        c.skip c.lexeme) := by
  unfold token
  dsimp only
  split
  · rename_i f hending hfailure
    exact .inl ⟨f, hfailure, hending, rfl⟩
  · rename_i hnone
    refine .inr ⟨?_, ?_⟩
    · by_contra hboth
      rw [not_or, not_not] at hboth
      obtain ⟨f, hf⟩ := Option.ne_none_iff_exists'.mp hboth.1
      exact hnone f hboth.2 hf
    · cases c.lexeme.lexeme.form <;> rfl

/-- A request for a token moves the cursor byte by byte. -/
theorem moves_forth (c : Cursor) : Moves c c.taken c.forth := by
  have hahead (hnil : c.taken = []) : c.ahead = none := by
    have hpending := pending_eq_nil_of_taken hnil
    simpa using (List.append_eq_nil_iff.mp hpending).1
  have hmoves := moves_append c.taken_append_rest.symm hahead
  have hplace : c.location.afterAll c.taken = c.tokenStart.afterAll c.lexeme.used := by
    rw [taken, Location.afterAll_append]
    rfl
  rw [hplace] at hmoves
  rw [← List.append_nil c.taken, forth]
  refine hmoves.trans ?_
  obtain ⟨f, hfailure, hending, htoken⟩ | ⟨-, htoken⟩ := token_cases c
  · have hrest := rest_of_ending_source hending
    have hskip : c.skip c.lexeme =
        ⟨⟨[], c.source.failure⟩, none, c.tokenStart.afterAll c.lexeme.used⟩ := by
      simp only [skip, hending, hrest]
    rw [htoken, hskip, hrest, hfailure]
    exact .miss (by simp [next, Source.read]) .stay
  · rw [htoken]
    unfold skip
    dsimp only
    split
    · rename_i b rest _ hrest
      rw [hrest]
      exact .look .stay
    · exact .stay

/-- What a request for a token can come to, with the bytes that it takes and the failure that it
leaves behind the source. -/
inductive Finds (c : Cursor) : Except Cause Token → List UInt8 → Option Failure → Prop
  | endOfInput (hblanks : ∀ b ∈ c.pending, isBlank b = true) (hfailure : c.source.failure = none) :
      Finds c (.ok ⟨c.location.afterAll c.pending, .endOfInput⟩) c.pending none
  /-- The end of the source has been looked at. -/
  | failure {f : Failure} (hfailure : c.source.failure = some f) :
      Finds c (.error (.failure f)) c.pending none
  | item {blanks bytes rest : List UInt8} {form : Form}
      (hpending : c.pending = blanks ++ (bytes ++ rest)) (hblanks : ∀ b ∈ blanks, isBlank b = true)
      (hitem : Item rest bytes form) :
      Finds c (.ok ⟨c.location.afterAll blanks, form⟩) (blanks ++ bytes) c.source.failure
  | unexpected {blanks rest : List UInt8} {b : UInt8} (hpending : c.pending = blanks ++ b :: rest)
      (hblanks : ∀ b ∈ blanks, isBlank b = true) (hb : isBlank b = false)
      (hstart : isVisible b = false ∨ b = Mark.closeBracket) :
      Finds c (.error (.malformed (.unexpected b) (c.location.afterAll (blanks ++ [b]))))
        (blanks ++ [b]) c.source.failure
  | unclosed {blanks rest : List UInt8} {opening closing : UInt8}
      (hpending : c.pending = blanks ++ opening :: rest) (hblanks : ∀ b ∈ blanks, isBlank b = true)
      (hmarks : Lexeme.Encloses opening closing)
      (hopen : ∀ body after, Balanced opening closing body → rest ≠ body ++ closing :: after)
      (hfailure : c.source.failure = none) :
      Finds c (.error (.malformed (.unclosed closing) (c.location.afterAll c.pending))) c.pending
        none

private theorem isBlank_of_mem_takeWhile (c : Cursor) :
    ∀ b ∈ c.pending.takeWhile isBlank, isBlank b = true := by
  intro b hb
  exact List.all_eq_true.mp List.all_takeWhile b hb

/-- A request for a token comes to one of these. -/
theorem finds_token (c : Cursor) : c.Finds c.token.1 c.taken c.forth.source.failure := by
  unfold forth
  have hblanks := c.isBlank_of_mem_takeWhile
  have hsplit : c.pending.takeWhile isBlank ++ c.pending.dropWhile isBlank = c.pending :=
    List.takeWhile_append_dropWhile
  obtain ⟨f, hfailure, hending, htoken⟩ | ⟨hreached, htoken⟩ := token_cases c
  · have hall : c.taken = c.pending := by
      rw [← c.taken_append_rest, rest_of_ending_source hending, List.append_nil]
    rw [htoken, hall]
    exact .failure hfailure
  · rw [htoken]
    dsimp only
    rw [failure_skip]
    cases hform : c.lexeme.lexeme.form with
    | ok form =>
      by_cases hbytes : c.pending.dropWhile isBlank = []
      · have hnothing : c.lexeme = ⟨.nothing, [], [], .source⟩ := by
          rw [lexeme, hbytes]
          rfl
        rw [hnothing] at hform hreached
        obtain rfl := Except.ok.inj hform
        have hfailure := hreached.resolve_right fun hne => hne rfl
        rw [hbytes, List.append_nil] at hsplit
        have hall : c.taken = c.pending := by
          rw [taken, hnothing, hsplit, List.append_nil]
        rw [hall, hfailure, tokenStart, hsplit]
        exact .endOfInput (hsplit ▸ hblanks) hfailure
      · have hitem := item_of_cut hbytes hform
        have hpending : c.pending =
            c.pending.takeWhile isBlank ++ (c.lexeme.used ++ c.lexeme.rest) := by
          rw [← List.append_assoc]
          exact c.taken_append_rest.symm
        exact .item hpending hblanks hitem
    | error problem =>
      dsimp only
      rw [location_skip, tokenStart, ← Location.afterAll_append]
      rcases Lexeme.problem_of_cut hform with
        ⟨b, rest, hbytes, rfl, hstart⟩ | ⟨opening, closing, rest, hbytes, hmarks, rfl, hopen, hcut⟩
      · have hb : isBlank b = false := by
          have hhead := List.head?_dropWhile_not isBlank c.pending
          rw [hbytes] at hhead
          exact hhead
        have hused : c.lexeme.used = [b] := by
          rw [lexeme, hbytes, Lexeme.cut_of_startsNothing hstart]
        rw [taken, hused]
        rw [hbytes] at hsplit
        exact .unexpected hsplit.symm hblanks hb hstart
      · rw [← lexeme] at hcut
        have hfailure := hreached.resolve_right fun hne => hne (by rw [hcut])
        rw [taken, hcut, hsplit, hfailure]
        rw [hbytes] at hsplit
        exact .unclosed hsplit.symm hblanks hmarks hopen hfailure

theorem Finds.failure_eq {result : Except Cause Token} {left : Option Failure}
    (h : c.Finds result bytes left) : left = none ∨ left = c.source.failure := by
  cases h with
  | item => exact .inr rfl
  | unexpected => exact .inr rfl
  | _ => exact .inl rfl

end Cursor

namespace Source

/-- The cursor after so many requests for a token, whatever they came to. -/
def after (s : Source) (k : Nat) : Cursor :=
  Cursor.forth^[k] (.ofSource s)

/-- What a request comes to, when there have been so many before it. -/
def answer (s : Source) (k : Nat) : Except Cause Token :=
  (s.after k).token.1

/-- The bytes that a request takes, when there have been so many before it. -/
def taken (s : Source) (k : Nat) : List UInt8 :=
  (s.after k).taken

/-- The bytes that so many requests take, one after the other. -/
def takenUpTo (s : Source) (k : Nat) : List UInt8 :=
  (List.range k).flatMap s.taken

variable {s : Source} {k : Nat}

theorem after_succ (s : Source) (k : Nat) : s.after (k + 1) = (s.after k).forth :=
  Function.iterate_succ_apply' _ _ _

theorem pending_after_succ (s : Source) (k : Nat) :
    (s.after k).pending = s.taken k ++ (s.after (k + 1)).pending := by
  rw [after_succ]
  exact (s.after k).moves_forth.pending_eq.1

theorem finds_answer (s : Source) (k : Nat) :
    (s.after k).Finds (s.answer k) (s.taken k) (s.after (k + 1)).source.failure := by
  rw [after_succ]
  exact (s.after k).finds_token

theorem takenUpTo_succ (s : Source) (k : Nat) :
    s.takenUpTo (k + 1) = s.takenUpTo k ++ s.taken k := by
  rw [takenUpTo, List.range_succ, List.flatMap_append, List.flatMap_singleton]
  rfl

/-- However many requests there have been, the bytes that they took and those that are left make up
the source, and the cursor stands between them. -/
theorem takenUpTo_append_pending (s : Source) (k : Nat) :
    s.takenUpTo k ++ (s.after k).pending = s.bytes ∧
      (s.after k).location = .behind (s.takenUpTo k) := by
  induction k with
  | zero => exact ⟨rfl, rfl⟩
  | succ k ih =>
    obtain ⟨hpending, hlocation⟩ := (s.after k).moves_forth.pending_eq
    rw [after_succ, takenUpTo_succ, Location.behind_append, ← ih.2, hlocation, List.append_assoc,
      ← ih.1, hpending]
    exact ⟨rfl, rfl⟩

theorem failure_after (s : Source) (k : Nat) :
    (s.after k).source.failure = none ∨ (s.after k).source.failure = s.failure := by
  induction k with
  | zero => exact .inr rfl
  | succ k ih =>
    rcases (s.finds_answer k).failure_eq with hleft | hleft
    · exact .inl hleft
    · rwa [hleft]

end Source

end StackScript
