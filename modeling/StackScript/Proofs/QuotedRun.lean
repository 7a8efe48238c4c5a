import StackScript.Proofs.Brackets
import StackScript.Proofs.NestingLimit
import StackScript.Proofs.TokenEffect
/-!
# Texts that are run as quotations

A text with matching brackets can be put between brackets and run by `do`.  It is then cut into
tokens like any other text, and its run is in step with a run of the text itself, one level further
out (`Machine.simulation_closed`).  So the two end alike, but for the layer of the call of `do`
(`Machine.execute_quoted`).
-/

namespace StackScript

theorem Verdict.returns_within (layer : Layer) (v : Verdict) :
    (v.within layer).returns = v.returns := by
  cases v <;> rfl

theorem Verdict.within_eq_unfinished_iff {layer : Layer} {v : Verdict} :
    v.within layer = .unfinished ↔ v = .unfinished := by
  cases v <;> simp [within]

theorem tokens_quoted_call {q : String} (hq : Bracketed q) :
    (Cursor.ofSource (.ofText ("[" ++ q ++ "] do"))).tokens =
      ([⟨.start, .quotation q⟩,
        ⟨.behind (Utf8.encode ("[" ++ q ++ "] ")), .call "do"⟩,
        ⟨.behind (Utf8.encode ("[" ++ q ++ "] do")), .endOfInput⟩], none) := by
  let c := Cursor.ofSource (.ofText ("[" ++ q ++ "] do"))
  have hlocation : c.location = .behind [] := rfl
  have hblank : Utf8.encode ("[" ++ q ++ "] ") = Utf8.encode ("[" ++ q ++ "]") ++ [32] := by
    simp only [Utf8.encode_append, List.append_assoc]
    rfl
  have hbytes : Utf8.encode ("[" ++ q ++ "] do") =
      Utf8.encode ("[" ++ q ++ "]") ++ 32 :: (Utf8.encode "do" ++ []) := by
    simp only [Utf8.encode_append, List.append_assoc]
    rfl
  have hname : ∀ b ∈ [(111 : UInt8)], isBlank b = false := by simp [isBlank]
  have hdo : Item [] (Utf8.encode "do") (.call "do") :=
    .call (b := 100) (by decide) (by decide) (by decide) hname (by simp [EndsWord])
  have hcuts : Cuts c.pending [.item (Utf8.encode ("[" ++ q ++ "]")) (.quotation q), .blank 32,
      .item (Utf8.encode "do") (.call "do")] := by
    show Cuts (Utf8.encode ("[" ++ q ++ "] do")) _
    rw [hbytes]
    exact .item (item_quotation hq _) (.blank rfl (.item hdo .nil))
  refine (Cursor.tokens_eq_iff_cuts rfl hlocation _).mpr ⟨_, hcuts, ?_⟩
  rw [hbytes, hblank]
  simp [Part.tokens]
  rfl

namespace Machine

variable {m n : Machine} {v : Verdict}

/-- Inside one text more a run takes the same steps, until a text is refused. -/
theorem simulation_closed :
    Simulation closed fun p _ =>
      (∃ l, p.Blames (.tooDeep l)) ∨
        ∃ n a calls, p = .running n (a :: calls) ∧ n.depth = 1 := by
  let g : Variation := { depth := (· - 1) }
  have hunnoticed (m : Machine) : g.Unnoticed (fun _ => True) (fun _ _ => False) m :=
    Variation.unnoticed_of_id rfl rfl rfl m
  apply Variation.simulation hunnoticed rfl
  case hescape => exact fun _ _ _ _ => False.elim
  case htoken =>
    intro m a
    unfold token
    split <;> rfl
  case hclosed => exact fun _ => rfl
  case hstart =>
    intro m calls a
    by_cases hlimit : m.maxNesting ≤ m.depth
    · exact .inr (.inl ⟨m.maxNesting, blames_start_of_le hlimit calls a⟩)
    have hstart : m.start calls a = .running m.opened (a :: calls) := if_neg hlimit
    rw [hstart]
    by_cases hzero : m.depth = 0
    · exact .inr (.inr ⟨m.opened, a, calls, rfl, by simp [opened, hzero]⟩)
    · left
      have hdepth : m.depth - 1 + 1 = m.depth := Nat.succ_pred hzero
      have hlimit' : ¬ (g.apply m).maxNesting ≤ (g.apply m).depth := by
        change ¬ m.maxNesting ≤ m.depth - 1
        omega
      have hopened : (g.apply m).opened = g.apply m.opened := by
        simp [g, Variation.apply, opened, hdepth]
      rw [start, if_neg hlimit', hopened]
      rfl

private theorem iterate_start_opened {a : Activation}
    (hdeep : ∀ e l k, (m.opened.start [] a).Ends (.failed e) k → e.cause ≠ .tooDeep l) (k : Nat) :
    Progress.next^[k] (m.start [] a) = (Progress.next^[k] (m.opened.start [] a)).map closed := by
  have hsound (k : Nat) : ¬ ((∃ l, (Progress.next^[k] (m.opened.start [] a)).Blames (.tooDeep l)) ∨
      ∃ n b calls, Progress.next^[k] (m.opened.start [] a) = .running n (b :: calls) ∧
        n.depth = 1) := by
    intro h
    rcases h with ⟨l, hblames⟩ | ⟨n, b, calls, hrunning, hone⟩
    · obtain ⟨e, n, hends, hcause⟩ := hblames.exists_ends
      exact hdeep e l n hends.of_iterate hcause
    · have hnested := nested_iterate m.opened a k
      rw [hrunning] at hnested
      have hdepth : n.depth = m.depth + 1 + (calls.length + 1) := hnested.depth
      omega
  have hstart := (simulation_closed.start m.opened [] a).resolve_right (hsound 0)
  have hm : m.opened.closed = m := rfl
  rw [hm] at hstart
  rw [hstart]
  rcases simulation_closed.iterate (m.opened.start [] a) k with hrun | ⟨j, -, hescape⟩
  · exact hrun
  · exact absurd hescape (hsound (j + 1))

theorem sourceEnds_iff_opened {source : Source}
    (hdeep : ∀ e l k, m.opened.SourceEnds source (.failed e) k → e.cause ≠ .tooDeep l) :
    m.SourceEnds source v n ↔ ∃ k, m.opened.SourceEnds source v k ∧ n = k.closed := by
  constructor
  · intro h
    obtain ⟨j, hj⟩ := h
    rw [iterate_start_opened hdeep] at hj
    obtain ⟨k, hk, hn⟩ := Progress.exists_of_map_eq_halted hj
    exact ⟨k, ⟨j, hk⟩, hn⟩
  · intro h
    obtain ⟨k, ⟨j, hj⟩, rfl⟩ := h
    refine ⟨j, ?_⟩
    rw [iterate_start_opened hdeep, hj]
    rfl

theorem opened_closed_of_pos (h : 0 < m.depth) : m.closed.opened = m := by
  simp only [opened, closed, Nat.sub_add_cancel h]

theorem SourceEnds.le_depth {source : Source} (h : m.SourceEnds source v n) :
    m.depth ≤ n.depth := by
  obtain ⟨k, hk⟩ := h
  let a : Activation := { entry := .outer, cursor := .ofSource source }
  have hle := (nested_iterate m a 0).le_depth_iterate (m.le_depth_start [] a) k
  rw [Function.iterate_zero_apply, hk] at hle
  exact hle

theorem ends_enter_iff {layer : Layer} {code : String} :
    (proceed [] layer (.enter code m)).Ends v n ↔
      ∃ w, m.SourceEnds (.ofText code) w n ∧ v = w.within layer := by
  rw [ends_proceed_iff]
  constructor
  · intro h
    obtain ⟨last, w, hturns, hconcludes, hv⟩ := h
    cases hturns with
    | refl => exact ⟨w, hconcludes, hv⟩
  · intro h
    obtain ⟨w, hsource, hv⟩ := h
    exact ⟨_, w, .refl _, hsource, hv⟩

theorem Obeys.tokensEnd_append_iff {ts us : List Token} {problem : Option Cause} {k : Machine}
    (h : m.Obeys ts k) : m.TokensEnd (ts ++ us) problem v n ↔ k.TokensEnd us problem v n := by
  induction ts generalizing m with
  | nil =>
    cases h
    rfl
  | cons t ts ih =>
    obtain ⟨j, hj, hts⟩ := h
    rw [List.cons_append, tokensEnd_cons_iff, ← ih hts]
    constructor
    · intro h
      rcases h with ⟨i, hi, hrest⟩ | ⟨i, hi, hne, -⟩
      · rwa [(hi.unique hj).2] at hrest
      · exact absurd (hi.unique hj).1 hne
    · intro hrest
      exact .inl ⟨j, hj, hrest⟩

theorem tokensEnd_last_iff {t last : Token} (hlast : last.form = .endOfInput) :
    m.TokensEnd [t, last] none v n ↔
      ∃ k, (m.obey [] t).Ends v k ∧ n = if v.returns then k.closed else k := by
  rw [tokensEnd_cons_iff]
  simp only [Progress.tokensEnd_endOfInput_iff hlast]
  constructor
  · intro h
    rcases h with ⟨k, hk, rfl, hn⟩ | ⟨k, hk, -, hn⟩
    · exact ⟨k, hk, hn⟩
    · exact ⟨k, hk, hn⟩
  · intro h
    obtain ⟨k, hk, hn⟩ := h
    by_cases hv : v = .done
    · rw [hv] at hk hn
      exact .inl ⟨k, hk, hv, hn⟩
    · exact .inr ⟨k, hk, hv, hn⟩

theorem sourceEnds_iff_of_enter {source : Source} {ts : List Token} {t : Token} {last : Location}
    {layer : Layer} {code : String} {k inner : Machine} (hm : m.depth < m.maxNesting)
    (htokens : (Cursor.ofSource source).tokens = (ts ++ [t, ⟨last, .endOfInput⟩], none))
    (hobeys : m.opened.Obeys ts k) (hmeaning : k.meaning t = (layer, .enter code inner)) :
    m.SourceEnds source v n ↔
      ∃ w j, inner.SourceEnds (.ofText code) w j ∧ v = w.within layer ∧
        n = if w.returns then j.closed else j := by
  rw [sourceEnds_iff_tokensEnd hm, htokens, hobeys.tokensEnd_append_iff, tokensEnd_last_iff rfl,
    obey, hmeaning]
  simp only [ends_enter_iff]
  constructor
  · intro h
    obtain ⟨j, ⟨w, hw, rfl⟩, hn⟩ := h
    rw [Verdict.returns_within] at hn
    exact ⟨w, j, hw, rfl, hn⟩
  · intro h
    obtain ⟨w, j, hw, rfl, hn⟩ := h
    rw [← Verdict.returns_within layer] at hn
    exact ⟨j, ⟨w, hw, rfl⟩, hn⟩

private theorem sourceEnds_quoted_iff {q : String} (hq : Bracketed q)
    (hname : m.dictionary.action? "do" = some (.primitive .run)) (hroom : 0 < m.stack.room)
    (hm : m.depth < m.maxNesting) :
    m.SourceEnds (.ofText ("[" ++ q ++ "] do")) v n ↔
      ∃ w k, m.opened.SourceEnds (.ofText q) w k ∧
        v = w.within ⟨.behind (Utf8.encode ("[" ++ q ++ "] ")), some "do"⟩ ∧
        n = if w.returns then k.closed else k := by
  let k := m.opened.withStack ⟨.quotation q :: m.stack.values, m.stack.room - 1⟩
  have hquotation : m.opened.Obeys [⟨.start, .quotation q⟩] k := obeys_literal rfl hroom
  have hperform : (Action.primitive .run).perform k = .enter q m.opened := by
    show Effect.enter q (m.opened.withStack ⟨m.stack.values, m.stack.room - 1 + 1⟩) = _
    rw [Nat.sub_add_cancel hroom]
    rfl
  refine sourceEnds_iff_of_enter hm (tokens_quoted_call hq) hquotation ?_
  rw [meaning_call (m := k) hname, hperform]

/-- Running a text with matching brackets as a quotation has the effect of running the text itself,
unless the quotation is too deep: the one run comes to an end if and only if the other does, and
they leave the same machine.  The error of the quotation is that of the text, places included, with
the layer of the call of `do` around it.  Only if the run is aborted the count of the running texts
is different. -/
theorem execute_quoted {s : Settings} {p : Progress} (hp : p.Reachable s) {q : String}
    (hq : Bracketed q) (hroom : 0 < p.machine.stack.room)
    (hdeep : ∀ fuel e n l, p.machine.executeText fuel ("[" ++ q ++ "] do") = (.failed e, n) →
      e.cause ≠ .tooDeep l) :
    ∃ place last,
      (Source.ofText ("[" ++ q ++ "] do")).tokens =
        .ok [⟨.start, .quotation q⟩, ⟨place, .call "do"⟩, ⟨last, .endOfInput⟩] ∧
      ∀ v n, v ≠ .unfinished →
        ((∃ fuel, p.machine.executeText fuel ("[" ++ q ++ "] do") = (v, n)) ↔
          ∃ w k, w ≠ .unfinished ∧ (∃ fuel, p.machine.executeText fuel q = (w, k)) ∧
            v = w.within ⟨place, some "do"⟩ ∧ n = if w.returns then k else k.opened) := by
  have hname := hp.action?_of_natives (show Library.natives.action? "do" = _ by rfl)
  generalize p.machine = m at *
  have hexecute {text : String} {v : Verdict} {n : Machine} (hv : v ≠ .unfinished) :
      (∃ fuel, m.executeText fuel text = (v, n)) ↔ m.SourceEnds (.ofText text) v n :=
    (sourceEnds_iff_exists_execute hv).symm
  have hdeep' {e : Error} {k : Machine} {l : Nat}
      (hfails : m.SourceEnds (.ofText ("[" ++ q ++ "] do")) (.failed e) k) :
      e.cause ≠ .tooDeep l := by
    obtain ⟨fuel, hfuel⟩ := (hexecute (by simp)).mpr hfails
    exact hdeep fuel e k l hfuel
  have hm : m.depth < m.maxNesting := by
    by_contra hle
    exact hdeep' ((sourceEnds_iff_of_le (Nat.le_of_not_lt hle)).mpr ⟨rfl, rfl⟩) rfl
  have hinner : ∀ e l k, m.opened.SourceEnds (.ofText q) (.failed e) k → e.cause ≠ .tooDeep l := by
    intro e l k hfails
    have houter := (sourceEnds_quoted_iff hq hname hroom hm).mpr ⟨_, k, hfails, rfl, rfl⟩
    exact hdeep' (e := e.within _) houter
  refine ⟨_, _, Source.tokens_eq_ok_iff.mpr (tokens_quoted_call hq), ?_⟩
  intro v n hv
  rw [hexecute hv, sourceEnds_quoted_iff hq hname hroom hm]
  have hsame {w : Verdict} {k : Machine} (hk : m.opened.SourceEnds (.ofText q) w k) :
      (if w.returns then k.closed else k) = if w.returns then k.closed else k.closed.opened := by
    rw [opened_closed_of_pos (Nat.lt_of_lt_of_le (Nat.succ_pos m.depth) hk.le_depth)]
  constructor
  · intro h
    obtain ⟨w, k, hk, rfl, rfl⟩ := h
    have hw : w ≠ .unfinished := mt Verdict.within_eq_unfinished_iff.mpr hv
    refine ⟨w, k.closed, hw, ?_, rfl, hsame hk⟩
    exact (hexecute hw).mpr ((sourceEnds_iff_opened hinner).mpr ⟨k, hk, rfl⟩)
  · intro h
    obtain ⟨w, j, hw, hdirect, rfl, rfl⟩ := h
    obtain ⟨k, hk, rfl⟩ := (sourceEnds_iff_opened hinner).mp ((hexecute hw).mp hdirect)
    exact ⟨w, k, hk, rfl, (hsame hk).symm⟩

/-- Inside a quotation a second `drop` finds the stack empty, as it does in the text itself. -/
theorem quoted_drop_fails_alike :
    let m := Machine.bare { capacity := 2 }
    let q := "7 [drop drop] do"
    ∃ e k, (∃ fuel, m.executeText fuel q = (.failed e, k)) ∧
      ∃ fuel, m.executeText fuel ("[" ++ q ++ "] do") =
        (.failed (e.within ⟨⟨1, 20⟩, some "do"⟩), k) := by
  intro m q
  let e : Error :=
    ((Error.ofCause .underflow).within ⟨⟨1, 6⟩, some "drop"⟩).within ⟨⟨1, 15⟩, some "do"⟩
  let e' := e.within ⟨⟨1, 20⟩, some "do"⟩
  have hverdict : (m.executeText 12 q).1 = .failed e := by decide
  have hdirect : m.executeText 12 q = (.failed e, (m.executeText 12 q).2) := by rw [← hverdict]
  have hverdict' : (m.executeText 12 ("[" ++ q ++ "] do")).1 = .failed e' := by decide
  have hquoted : m.executeText 12 ("[" ++ q ++ "] do") =
      (.failed e', (m.executeText 12 ("[" ++ q ++ "] do")).2) := by rw [← hverdict']
  have hunique {fuel : Nat} {f : Error} {n : Machine}
      (h : m.executeText fuel ("[" ++ q ++ "] do") = (.failed f, n)) : f = e' := by
    have hsame := (Progress.ends_of_run h (by simp)).unique
      (Progress.ends_of_run hquoted (by simp))
    exact Verdict.failed.inj hsame.1
  have hreachable : (Progress.halted .done m).Reachable { capacity := 2 } :=
    ⟨m, .bare, Relation.ReflTransGen.refl⟩
  have hdeep : ∀ fuel f n l, m.executeText fuel ("[" ++ q ++ "] do") = (.failed f, n) →
      f.cause ≠ .tooDeep l := by
    intro fuel f n l hfails
    rw [hunique hfails]
    simp [e', e, Error.within, Error.ofCause]
  obtain ⟨place, last, -, hends⟩ :=
    execute_quoted (q := q) hreachable (by decide) (by decide) hdeep
  have hthere : ∃ fuel, m.executeText fuel ("[" ++ q ++ "] do") =
      (.failed (e.within ⟨place, some "do"⟩), (m.executeText 12 q).2) :=
    (hends _ _ (by simp)).mpr ⟨.failed e, _, by simp, ⟨12, hdirect⟩, rfl, rfl⟩
  obtain ⟨fuel, hfails⟩ := hthere
  refine ⟨e, _, ⟨12, hdirect⟩, fuel, ?_⟩
  rw [hfails, hunique hfails]

end Machine

end StackScript
