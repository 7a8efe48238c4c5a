import StackScript.Proofs.ConsoleFrame
import StackScript.Proofs.Sequence
import StackScript.Proofs.StreamReading
/-!
# A script on the line input

A script that is read from the line input shares it with the lines that are read while it runs.
Every byte of the input is taken once, by a token of the script or as part of a line
(`Progress.consumed_append_input`).  A part of the script that reads no line is run as if it stood
alone, and what stands behind it is run after it (`Machine.exists_reading_followedBy`).
-/

namespace StackScript

/-- The cursor at the bytes that the machine has as its line input. -/
def Cursor.on (m : Machine) (c : Cursor) : Cursor :=
  { c with source := .ofBytes m.console.input }

namespace Progress

/-- The bytes of the line input that the next token takes. -/
def scanned : Progress → List UInt8
  | .running m (a :: _) => if a.shared then (a.cursor.on m).scanned else []
  | _ => []

/-- The bytes of the line input that the first steps take: in each of them those of the token that
is read, and then those of the line that its call reads. -/
def consumed : Nat → Progress → List UInt8
  | 0, _ => []
  | n + 1, p => p.scanned ++ (p.call?.toList.filterMap Call.line?).flatten ++ p.next.consumed n

theorem scanned_append_input (p : Progress) :
    p.scanned ++ p.fetched.console.input = p.machine.console.input := by
  cases p with
  | raising e m calls => rfl
  | halted v m => rfl
  | running m calls =>
    cases calls with
    | nil => rfl
    | cons a calls =>
      simp only [scanned, fetched, Machine.token]
      split
      · exact (Cursor.ahead_append_scanned (c := a.cursor.on m) rfl).2
      · rfl

/-- Every byte is taken once and in order, by a token or as part of a line. -/
theorem consumed_append_input (p : Progress) (n : Nat) :
    p.consumed n ++ (next^[n] p).machine.console.input = p.machine.console.input := by
  induction n generalizing p with
  | zero => rfl
  | succ n ih =>
    have hlines := congrArg List.flatten p.cutLines_input_fetched
    rw [List.flatten_append, flatten_cutLines, flatten_cutLines] at hlines
    rw [consumed, List.append_assoc, Function.iterate_succ_apply, ih, List.append_assoc, ← hlines,
      scanned_append_input]

end Progress

namespace Machine

def withInput (input : List UInt8) : Machine → Machine :=
  onConsole fun c => { c with input }

/-- A script on the line input, read up to the given cursor. -/
def reader (c : Cursor) : Activation :=
  { entry := .outer, cursor := c, shared := true }

/-- The machine runs a script on its line input, which it has read up to the given cursor. -/
def reading (m : Machine) (c : Cursor) : Progress :=
  .running m [reader c]

variable {m n m' : Machine} {c c' after : Cursor} {t : Token} {v : Verdict}

theorem token_reader (m : Machine) (c : Cursor) :
    m.token (reader c) = ((c.on m).token.1, reader (c.on m).token.2,
      m.withInput (c.on m).token.2.source.bytes) :=
  rfl

theorem on_withInput (hfailure : c.source.failure = none) (more : List UInt8) :
    c.on (m.withInput (c.source.bytes ++ more)) = c.followedBy more := by
  simp only [Cursor.on, Cursor.followedBy, Source.ofBytes, hfailure]
  rfl

theorem ends_reading_congr (h : (c.on m).token = (c'.on m).token) :
    (m.reading c).Ends v m' ↔ (m.reading c').Ends v m' := by
  have hnext : (m.reading c).next = (m.reading c').next := by
    simp only [reading, Progress.next, step, token_reader, h]
  rw [← Progress.ends_next_iff, hnext, Progress.ends_next_iff]

theorem ends_reading_of_error {cause : Cause} (h : (c.on m).token = (.error cause, after)) :
    (m.reading c).Ends v m' ↔
      v = .failed (.ofCause cause) ∧ m' = (m.withInput after.source.bytes).closed := by
  have hnext : (m.reading c).next =
      .raising (.ofCause cause) (m.withInput after.source.bytes) [reader after] := by
    simp only [reading, Progress.next, step, token_reader, h]
  rw [← Progress.ends_next_iff, hnext]
  exact Progress.ends_raising_outer_iff

theorem ends_reading_of_end (h : (c.on m).token = (.ok t, after)) (ht : t.form = .endOfInput) :
    (m.reading c).Ends v m' ↔ v = .done ∧ m' = (m.withInput after.source.bytes).closed := by
  have hnext : (m.reading c).next = .running (m.withInput after.source.bytes).closed [] := by
    simp only [reading, Progress.next, step, token_reader, h, if_pos ht]
    rfl
  rw [← Progress.ends_next_iff, hnext]
  exact Progress.ends_running_nil_iff

theorem ends_reading_of_token (h : (c.on m).token = (.ok t, after)) (ht : t.form ≠ .endOfInput) :
    (m.reading c).Ends v m' ↔
      (∃ n, ((m.withInput after.source.bytes).obey [] t).Ends .done n ∧
        (n.reading after).Ends v m') ∨
      ∃ n, ((m.withInput after.source.bytes).obey [] t).Ends v n ∧ v ≠ .done ∧
        m' = if v.returns then n.closed else n := by
  have hnext : (m.reading c).next =
      ((m.withInput after.source.bytes).obey [] t).above [reader after] := by
    rw [← obey_append, List.nil_append]
    simp only [reading, Progress.next, step, token_reader, h, if_neg ht]
  rw [← Progress.ends_next_iff, hnext, Progress.ends_above_iff]
  constructor
  · rintro ⟨w, n, hobey, hrest⟩
    by_cases hw : w = .done
    · subst hw
      exact .inl ⟨n, hobey, hrest⟩
    · obtain ⟨rfl, hm⟩ := (Progress.ends_above_outer_iff hw).mp hrest
      exact .inr ⟨n, hobey, hw, hm⟩
  · rintro (⟨n, hobey, hrest⟩ | ⟨n, hobey, hv, hm⟩)
    · exact ⟨.done, n, hobey, hrest⟩
    · exact ⟨v, n, hobey, (Progress.ends_above_outer_iff hv).mpr ⟨rfl, hm⟩⟩

theorem ends_reading_of_done (h : (c.on m).token = (.ok t, after)) (ht : t.form ≠ .endOfInput)
    (hobey : ((m.withInput after.source.bytes).obey [] t).Ends .done n) :
    (m.reading c).Ends v m' ↔ (n.reading after).Ends v m' := by
  rw [ends_reading_of_token h ht]
  constructor
  · rintro (⟨k, hk, hrest⟩ | ⟨k, hk, hv, -⟩)
    · obtain ⟨-, rfl⟩ := hobey.unique hk
      exact hrest
    · exact absurd (hobey.unique hk).1.symm hv
  · intro hrest
    exact .inl ⟨n, hobey, hrest⟩

theorem ends_reading_of_failed {e : Error} (h : (c.on m).token = (.ok t, after))
    (ht : t.form ≠ .endOfInput)
    (hobey : ((m.withInput after.source.bytes).obey [] t).Ends (.failed e) n) :
    (m.reading c).Ends v m' ↔ v = .failed e ∧ m' = n.closed := by
  rw [ends_reading_of_token h ht]
  constructor
  · rintro (⟨k, hk, -⟩ | ⟨k, hk, -, hm⟩)
    · cases (hobey.unique hk).1
    · obtain ⟨rfl, rfl⟩ := hobey.unique hk
      exact ⟨rfl, hm⟩
  · rintro ⟨rfl, hm⟩
    exact .inr ⟨n, hobey, by simp, hm⟩

theorem input_readLine (c : Console) :
    c.readLine.2.input <:+ c.input ∧
      (c.input ≠ [] → c.readLine.2.input.length < c.input.length) := by
  have hinput := flatten_cutLines c.input
  rw [Console.readLine_eq]
  cases hlines : cutLines c.input with
  | nil =>
    refine ⟨List.suffix_refl _, fun hne => ?_⟩
    exact absurd (cutLines_eq_nil_iff.mp hlines) hne
  | cons line lines =>
    have hne : line ≠ [] := ne_nil_of_mem_cutLines (by rw [hlines]; exact List.mem_cons_self)
    rw [hlines, List.flatten_cons] at hinput
    rw [← hinput]
    refine ⟨List.suffix_append _ _, fun _ => ?_⟩
    rw [List.length_append]
    exact Nat.lt_add_of_pos_left (List.length_pos_of_ne_nil hne)

theorem input_meaning (m : Machine) (t : Token) :
    (m.meaning t).2.machine.console.input <:+ m.console.input ∧
      (m.primitive? t = some .read → m.console.input ≠ [] →
        (m.meaning t).2.machine.console.input.length < m.console.input.length) := by
  cases hprimitive : m.primitive? t with
  | none =>
    have hinput : (m.meaning t).2.machine.console.input = m.console.input :=
      congrArg Prod.fst (supply_meaning hprimitive)
    rw [hinput]
    exact ⟨List.suffix_refl _, by simp⟩
  | some p =>
    rw [meaning_of_primitive? hprimitive]
    by_cases hread : p = .read
    · subst hread
      rw [Primitive.perform, Effect.machine, console_performRead]
      exact ⟨(input_readLine m.console).1, fun _ => (input_readLine m.console).2⟩
    · rw [input_perform m hread]
      refine ⟨List.suffix_refl _, ?_⟩
      intro hp
      exact absurd (Option.some.inj hp) hread

theorem private_obey (m : Machine) (t : Token) : (m.obey [] t).Private :=
  throughout_proceed Activation.lasting_private (List.forall_mem_nil _) _ _

theorem input_of_ends_obey (h : (m.obey [] t).Ends v n) :
    n.console.input <:+ (m.meaning t).2.machine.console.input := by
  obtain ⟨steps, hsteps⟩ := h
  have hrun := (m.private_obey t).input_run steps
  rw [hsteps, obey, console_proceed] at hrun
  rw [hrun]
  exact List.suffix_append _ _

theorem input_of_ends_text (h : (Progress.running m [{ entry := .outer, cursor := c }]).Ends v n) :
    n.console.input <:+ m.console.input := by
  obtain ⟨steps, hsteps⟩ := h
  have hprivate : (Progress.running m [{ entry := .outer, cursor := c }]).Private :=
    List.forall_mem_singleton.mpr rfl
  have hrun := hprivate.input_run steps
  rw [hsteps] at hrun
  exact ⟨_, hrun.symm⟩

theorem ends_obey_withInput (h : (m.obey [] t).Ends .done n)
    (hinput : n.console.input = m.console.input) (hne : m.console.input ≠ []) (input : List UInt8) :
    ((m.withInput input).obey [] t).Ends .done (n.withInput input) := by
  have hread : m.primitive? t ≠ some .read := by
    intro hread
    have hlt := (m.input_meaning t).2 hread hne
    have hle := (input_of_ends_obey h).length_le
    rw [hinput] at hle
    omega
  let b : Machine := m.withInput []
  have hextended (n : Machine) (hn : n.console.input = []) (input : List UInt8) :
      n.extended input [] = n.withInput input := by
    simp [extended, withInput, onConsole, Console.extended, hn]
  have hobey (input : List UInt8) :
      (m.withInput input).obey [] t = (b.obey [] t).map (extended input []) := by
    have hm : m.withInput input = b.extended input [] := (hextended b rfl input).symm
    have hmeaning : (b.extended input []).meaning t = _ := meaning_onConsole fun p hp =>
      Console.unaware_extended (p := p) [] fun hpread => absurd (hpread ▸ hp) hread
    rw [hm, obey, hmeaning]
    exact proceed_onConsole _ _ _ _
  obtain ⟨steps, hsteps⟩ := h
  have hself : m.withInput m.console.input = m := rfl
  rw [← hself, hobey] at hsteps
  have hle : m.console.input.length ≤ (Progress.next^[steps]
      ((b.obey [] t).map (extended m.console.input []))).machine.console.input.length := by
    rw [hsteps]
    exact Nat.le_of_eq (congrArg List.length hinput.symm)
  obtain ⟨hiterate, hwhole⟩ := (b.private_obey t).iterate_extended hle
  refine ⟨steps, ?_⟩
  rw [hobey, (b.private_obey t).iterate_extended_of_readsWhole
    (.inr (hwhole.resolve_left hne))]
  rw [hsteps] at hiterate
  obtain ⟨k, hend, hn⟩ := Progress.exists_of_map_eq_halted hiterate.symm
  have hk : k.console.input = [] := by
    have hagain : n.console.input = k.console.input ++ m.console.input :=
      congrArg (fun n : Machine => n.console.input) hn
    rw [hinput] at hagain
    exact List.append_left_eq_self.mp hagain.symm
  rw [hextended k hk] at hn
  rw [hend, Progress.map, hextended k hk, hn]
  rfl

theorem ends_reading_lower_iff {lines : Nat} :
    (m.reading (c.lower lines)).Ends v m' ↔
      ∃ w, (m.reading c).Ends w m' ∧ v = w.lower lines := by
  induction hlength : (c.on m).pending.length using Nat.strongRecOn generalizing m c with
  | ind length ih =>
    have hon : (c.lower lines).on m = (c.on m).lower lines := rfl
    rcases htoken : (c.on m).token with ⟨result, after⟩
    cases result with
    | error cause =>
      have hlower := Cursor.token_lower_of_error htoken rfl lines
      rw [← hon] at hlower
      simp only [ends_reading_of_error htoken, ends_reading_of_error hlower]
      constructor
      · rintro ⟨hv, hm⟩
        exact ⟨_, ⟨rfl, hm⟩, hv⟩
      · rintro ⟨w, ⟨rfl, hm⟩, hv⟩
        exact ⟨hv, hm⟩
    | ok t =>
      have hlower := Cursor.token_lower_of_ok htoken rfl lines
      rw [← hon] at hlower
      by_cases ht : t.form = .endOfInput
      · simp only [ends_reading_of_end htoken ht, ends_reading_of_end hlower ht]
        constructor
        · rintro ⟨rfl, hm⟩
          exact ⟨.done, ⟨rfl, hm⟩, rfl⟩
        · rintro ⟨w, ⟨rfl, hm⟩, hv⟩
          exact ⟨hv, hm⟩
      · have hsmaller {n : Machine}
            (hn : ((m.withInput after.source.bytes).obey [] t).Ends .done n) :
            (after.on n).pending.length < length := by
          have hinput := (input_of_ends_obey hn).length_le.trans
            ((m.withInput after.source.bytes).input_meaning t).1.length_le
          have hpending := Cursor.length_pending_lt_of_token htoken ht
          rw [hlength, Cursor.pending, List.length_append] at hpending
          rw [Cursor.pending, List.length_append]
          exact Nat.lt_of_le_of_lt (Nat.add_le_add_left hinput _) hpending
        have hbytes : (after.lower lines).source.bytes = after.source.bytes := rfl
        simp only [ends_reading_of_token htoken ht, ends_reading_of_token hlower ht, hbytes,
          ends_obey_lower_iff]
        constructor
        · rintro (⟨n, ⟨u, hobey, hu⟩, hrest⟩ | ⟨n, ⟨w, hobey, rfl⟩, hv, hm⟩)
          · obtain rfl := Verdict.lower_eq_done_iff.mp hu.symm
            obtain ⟨w, hw, rfl⟩ := (ih _ (hsmaller hobey) rfl).mp hrest
            exact ⟨w, .inl ⟨n, hobey, hw⟩, rfl⟩
          · rw [Verdict.returns_lower] at hm
            exact ⟨w, .inr ⟨n, hobey, mt Verdict.lower_eq_done_iff.mpr hv, hm⟩, rfl⟩
        · rintro ⟨w, ⟨n, hobey, hw⟩ | ⟨n, hobey, hv, hm⟩, rfl⟩
          · exact .inl ⟨n, ⟨.done, hobey, rfl⟩, (ih _ (hsmaller hobey) rfl).mpr ⟨w, hw, rfl⟩⟩
          · rw [← Verdict.returns_lower lines] at hm
            exact .inr ⟨n, ⟨w, hobey, rfl⟩, mt Verdict.lower_eq_done_iff.mp hv, hm⟩

/-- A token that ends before its text does, and whose call reads no line, does in a script what it
does in the text alone. -/
theorem ends_reading_followedBy_iff {k : Machine} (hfailure : c.source.failure = none)
    (hending : c.lexeme.ending ≠ .source) (htoken : c.token = (.ok t, after))
    (ht : t.form ≠ .endOfInput) (hobey : (m.obey [] t).Ends .done k)
    (hinput : k.console.input = m.console.input) (hne : m.console.input ≠ []) (more : List UInt8) :
    ((m.withInput (c.source.bytes ++ more)).reading c).Ends v m' ↔
      ((k.withInput (after.source.bytes ++ more)).reading after).Ends v m' := by
  have hread : (c.on (m.withInput (c.source.bytes ++ more))).token =
      (.ok t, after.followedBy more) := by
    rw [on_withInput hfailure]
    exact Cursor.token_followedBy hfailure hending htoken more
  have hsame : ((k.withInput (after.source.bytes ++ more)).reading
      (after.followedBy more)).Ends v m' ↔
      ((k.withInput (after.source.bytes ++ more)).reading after).Ends v m' :=
    ends_reading_congr rfl
  rw [← hsame]
  exact ends_reading_of_done hread ht (ends_obey_withInput hobey hinput hne _)

/-- A text at the front of the line input that succeeds alone, and that reads no line, does in a
script what it does alone.  The script goes on behind it, with nothing but blanks before what
follows. -/
theorem exists_reading_followedBy (hfailure : c.source.failure = none) (hblank : c.EndsBlank)
    (htext : ¬ c.EndsInText)
    (hrun : (Progress.running m [{ entry := .outer, cursor := c }]).Ends .done n)
    (hinput : n.console.input = m.console.input) (hne : m.console.input ≠ []) (more : List UInt8) :
    ∃ k e, m.Evolves k ∧ n = k.closed ∧ e.source.failure = none ∧ e.pending.dropWhile isBlank = [] ∧
      e.location.afterAll e.pending = c.location.afterAll c.pending ∧
      ∀ v m', ((m.withInput (c.source.bytes ++ more)).reading c).Ends v m' ↔
        ((k.withInput (e.source.bytes ++ more)).reading e).Ends v m' := by
  induction c using Cursor.token_induction generalizing m with
  | step c ih =>
    rw [← Progress.ends_next_iff] at hrun
    rcases htoken : c.token with ⟨result, after⟩
    cases result with
    | error cause =>
      rw [Progress.next_text_of_error htoken] at hrun
      cases (Progress.ends_raising_outer_iff.mp hrun).1
    | ok t =>
      by_cases ht : t.form = .endOfInput
      · rw [Progress.next_text_of_end htoken ht] at hrun
        refine ⟨m, c, .refl m, (Progress.ends_running_nil_iff.mp hrun).2, hfailure,
          (Cursor.dropWhile_isBlank_eq_nil_iff htoken).mpr ht, rfl, fun _ _ => Iff.rfl⟩
      · rw [Progress.next_text_of_token htoken ht, Progress.ends_above_iff] at hrun
        obtain ⟨w, k, hobey, hrest⟩ := hrun
        have hw : w = .done := by
          by_contra hw
          exact hw ((Progress.ends_above_outer_iff hw).mp hrest).1
        subst hw
        rw [Cursor.endsInText_iff_of_token htoken ht, not_or] at htext
        have hk : k.console.input = m.console.input := by
          have hfirst := (input_of_ends_obey hobey).trans (m.input_meaning t).1
          have hsecond : n.console.input <:+ k.console.input := input_of_ends_text hrest
          rw [hinput] at hsecond
          exact hfirst.eq_of_length (Nat.le_antisymm hfirst.length_le hsecond.length_le)
        have hafter : after.source.failure = none := by
          rw [(Cursor.skip_of_token htoken).1, Cursor.failure_skip, hfailure]
        have hending := hblank.ending_ne_source htoken ht htext.1
        obtain ⟨k', e, hevolves, hn, hfailure', hend, hplace, hbehind⟩ :=
          ih t after htoken ht hafter (hblank.of_token htoken) htext.2 hrest (hinput.trans hk.symm)
            (hk ▸ hne)
        refine ⟨k', e, (evolves_of_ends_obey hobey rfl).trans hevolves, hn, hfailure', hend,
          hplace.trans (Cursor.afterAll_pending_of_token htoken), fun v m' => ?_⟩
        rw [ends_reading_followedBy_iff hfailure hending htoken ht hobey hk hne]
        exact hbehind v m'

end Machine

end StackScript
