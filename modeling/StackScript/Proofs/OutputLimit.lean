import StackScript.Proofs.ConsoleFrame
/-!
# Outputs that take only so many bytes

A run notices the limit of its output only where a text that is written does not fit.  The part of
it that fits is written, the run fails, and on its way out nothing more is written.  So a limit that
the output of a run does not exceed makes no difference to it, and any smaller one cuts the output
off at the limit.
-/

namespace StackScript

namespace Sink

def withRoom (room : Option Nat) (s : Sink) : Sink := { s with room }

/-- The first sink is full and lacks some of what the second one holds. -/
structure CutShort (s t : Sink) : Prop where
  room : s.room = some 0
  contents : s.contents <+: t.contents
  length_lt : s.contents.length < t.contents.length

variable {s t : Sink}

theorem write_withRoom_none (s : Sink) (bytes : List UInt8) :
    (s.withRoom none).write bytes = ((s.write bytes).1, (s.write bytes).2.withRoom none) ∨
      (s.write bytes).1 = .error .outputFull ∧ ((s.withRoom none).write bytes).1 = .ok () ∧
        (s.write bytes).2.CutShort ((s.withRoom none).write bytes).2 := by
  obtain ⟨written, room⟩ := s
  cases room with
  | none => exact .inl rfl
  | some room =>
    by_cases hfits : bytes.length ≤ room
    · left
      simp [write, withRoom, hfits]
    · right
      simp only [write, withRoom, hfits, if_false, true_and]
      refine ⟨rfl, ?_, ?_⟩
      · simp only [contents, List.reverse_append, List.reverse_reverse]
        exact (List.prefix_append_right_inj _).mpr (List.take_prefix _ _)
      · simp only [contents, List.length_reverse, List.length_append, List.length_take]
        omega

theorem Grows.contents_eq_of_full (h : s.Grows t) (hfull : s.room = some 0) :
    t.contents = s.contents := by
  have hlimit := h.limit
  rw [Sink.limit, Sink.limit, hfull, Option.map_some, Option.map_eq_some_iff] at hlimit
  obtain ⟨room, -, hsum⟩ := hlimit
  refine (h.contents.eq_of_length_le ?_).symm
  omega

end Sink

namespace Machine

/-- The machine with another number of bytes that may still be written to its output. -/
def withOutputRoom (room : Option Nat) : Machine → Machine :=
  onConsole fun c => { c with sink := c.sink.withRoom room }

variable {m m' : Machine}

theorem simulation_withOutputRoom_none :
    Simulation (withOutputRoom none) fun p q =>
      p.Blames (.failure .outputFull) ∧ p.machine.sink.CutShort q.machine.sink := by
  let g : Variation := { console := fun c => { c with sink := c.sink.withRoom none } }
  let escape (effect effect' : Effect) : Prop :=
    ∃ n k, effect = .settled (.failed (.failure .outputFull) n) ∧ effect' = .settled (.done k) ∧
      n.sink.CutShort k.sink
  have hunnoticed (m : Machine) : g.Unnoticed (fun _ => True) escape m := by
    constructor
    case stack => exact ⟨.overflow, fun _ _ => False, .refl _, fun _ _ => False.elim⟩
    case define => exact fun _ w => .inl (Variation.define_id _ w)
    case readLine =>
      intro _
      rw [Console.readLine_eq, Console.readLine_eq]
      cases cutLines m.console.input <;> rfl
    case write =>
      intro _ text
      rcases m.console.sink.write_withRoom_none (Utf8.encode text) with
        hwrite | ⟨hfull, hdone, hcut⟩
      · left
        simp only [g, Console.write, hwrite]
      · right
        refine ⟨.outputFull, _, _, Prod.ext hfull rfl, Prod.ext hdone rfl, fun n k hn hk => ?_⟩
        refine ⟨n, k, rfl, rfl, ?_⟩
        rw [sink, sink, hn, hk]
        exact hcut
  apply Variation.simulation hunnoticed rfl
  case hescape =>
    rintro effect effect' calls layer ⟨n, k, rfl, rfl, hcut⟩
    exact ⟨rfl, hcut⟩
  case htoken =>
    intro m a
    unfold token
    split <;> rfl
  case hclosed => exact fun _ => rfl
  case hstart => exact fun m calls a => .inl (start_onConsole _ m calls a)

theorem withOutputRoom_of_eq {room : Option Nat} (h : m.sink.room = room) :
    m.withOutputRoom room = m := by
  apply onConsole_of_eq
  rw [← h]
  rfl

theorem Unlimited.withOutputRoom_none (h : m.Unlimited) (room : Option Nat) :
    (m.withOutputRoom room).withOutputRoom none = m :=
  withOutputRoom_of_eq h

/-- A run with a limited output takes the steps of the run without a limit, up to a text that does
not fit: then its output is full, and the output without a limit is longer. -/
theorem Unlimited.in_step_or_cut (h : m.Unlimited) (a : Activation) (room n : Nat) :
    Progress.next^[n] (m.start [] a) =
        (Progress.next^[n] ((m.withOutputRoom (some room)).start [] a)).map
          (withOutputRoom none) ∨
      ∃ k ≤ n, (Progress.next^[k] ((m.withOutputRoom (some room)).start [] a)).Blames
          (.failure .outputFull) ∧
        (Progress.next^[k] ((m.withOutputRoom (some room)).start [] a)).machine.sink.CutShort
          (Progress.next^[k] (m.start [] a)).machine.sink := by
  have hstart : m.start [] a =
      ((m.withOutputRoom (some room)).start [] a).map (withOutputRoom none) := by
    have hmap := start_onConsole (fun c => { c with sink := c.sink.withRoom none })
      (m.withOutputRoom (some room)) [] a
    rw [← withOutputRoom, h.withOutputRoom_none] at hmap
    exact hmap
  rw [hstart]
  rcases simulation_withOutputRoom_none.iterate
    ((m.withOutputRoom (some room)).start [] a) n with hrun | ⟨k, hk, hcut⟩
  · exact .inl hrun
  · exact .inr ⟨k + 1, hk, hcut⟩

theorem sink_start (m : Machine) (calls : List Activation) (a : Activation) :
    (m.start calls a).machine.sink = m.sink := by
  unfold start
  split <;> rfl

theorem grows_of_evaluate {fuel : Nat} {a : Activation} {v : Verdict}
    (h : m.evaluate fuel a = (v, m')) (hv : v ≠ .unfinished) : m.sink.Grows m'.sink := by
  have hgrows := (m.start [] a).sink_iterate fuel
  rw [Progress.iterate_of_run h hv, sink_start] at hgrows
  exact hgrows

variable {fuel room : Nat} {a : Activation} {v : Verdict} {w : List UInt8}

private theorem evaluate_of_in_step (h : m.evaluate fuel a = (v, m')) (hv : v ≠ .unfinished)
    (hw : m'.sink.contents = m.sink.contents ++ w)
    (hrun : Progress.next^[fuel] (m.start [] a) =
      (Progress.next^[fuel] ((m.withOutputRoom (some room)).start [] a)).map
        (withOutputRoom none)) :
    w.length ≤ room ∧ (m.withOutputRoom (some room)).evaluate fuel a =
      (v, m'.withOutputRoom (some (room - w.length))) := by
  rw [Progress.iterate_of_run h hv] at hrun
  obtain ⟨n, hend, rfl⟩ := Progress.exists_of_map_eq_halted hrun.symm
  have hlimited : (m.withOutputRoom (some room)).evaluate fuel a = (v, n) :=
    Progress.run_of_iterate hend
  have hlimit := (grows_of_evaluate hlimited hv).limit
  have hstart : (m.withOutputRoom (some room)).sink.limit =
      some (m.sink.contents.length + room) := rfl
  rw [hstart, Sink.limit, Option.map_eq_some_iff] at hlimit
  obtain ⟨left, hleft, hsum⟩ := hlimit
  have hlength : n.sink.contents.length = m.sink.contents.length + w.length := by
    rw [← List.length_append, ← hw]
    rfl
  have hroom : left = room - w.length := by omega
  refine ⟨by omega, ?_⟩
  rw [hlimited, ← hroom]
  exact congrArg (Prod.mk v) (withOutputRoom_of_eq hleft).symm

private theorem exists_evaluate_of_cut {k : Nat} (h : m.evaluate fuel a = (v, m'))
    (hv : v ≠ .unfinished) (hw : m'.sink.contents = m.sink.contents ++ w) (hk : k ≤ fuel)
    (hblames : (Progress.next^[k] ((m.withOutputRoom (some room)).start [] a)).Blames
      (.failure .outputFull))
    (hcut : (Progress.next^[k] ((m.withOutputRoom (some room)).start [] a)).machine.sink.CutShort
      (Progress.next^[k] (m.start [] a)).machine.sink) :
    room < w.length ∧ ∃ fuel' e n,
      (m.withOutputRoom (some room)).evaluate fuel' a = (.failed e, n) ∧
        e.cause = .failure .outputFull ∧
        n.sink.contents = m.sink.contents ++ w.take room := by
  obtain ⟨e, n, hends, hcause⟩ := hblames.exists_ends
  let p := Progress.next^[k] ((m.withOutputRoom (some room)).start [] a)
  have hlength : p.machine.sink.contents.length = m.sink.contents.length + room := by
    have hlimit := (((m.withOutputRoom (some room)).start [] a).sink_iterate k).limit
    rw [sink_start, Sink.limit, hcut.room] at hlimit
    exact Option.some.inj hlimit
  have hrest := (Progress.next^[k] (m.start [] a)).sink_iterate (fuel - k)
  rw [← Function.iterate_add_apply, Nat.sub_add_cancel hk, Progress.iterate_of_run h hv] at hrest
  have hprefix : p.machine.sink.contents <+: m'.sink.contents :=
    hcut.contents.trans hrest.contents
  have hlonger : p.machine.sink.contents.length < m'.sink.contents.length :=
    Nat.lt_of_lt_of_le hcut.length_lt hrest.contents.length_le
  have hlast : n.sink.contents = p.machine.sink.contents := by
    obtain ⟨j, hj⟩ := hends
    have hgrows := p.sink_iterate j
    rw [hj] at hgrows
    exact hgrows.contents_eq_of_full hcut.room
  refine ⟨?_, ?_⟩
  · rw [hlength, hw, List.length_append] at hlonger
    exact Nat.lt_of_add_lt_add_left hlonger
  · obtain ⟨fuel', hrun⟩ := (Progress.ends_iff_exists_run (by simp)).mp hends.of_iterate
    refine ⟨fuel', e, n, hrun, hcause, ?_⟩
    calc n.sink.contents
      _ = m'.sink.contents.take p.machine.sink.contents.length :=
        hlast.trans (List.prefix_iff_eq_take.mp hprefix)
      _ = m.sink.contents ++ w.take room := by
        rw [hlength, hw, List.take_length_add_append]

/-- A limit of the output makes no difference to a run whose output does not exceed it.  Any smaller
limit fails the run where it is exceeded, and what has been written then is the output up to the
limit. -/
theorem evaluate_withOutputRoom {fuel : Nat} {m m' : Machine} {a : Activation} {v : Verdict}
    (hroom : m.Unlimited) (h : m.evaluate fuel a = (v, m')) (hv : v ≠ .unfinished) (room : Nat) :
    ∃ w, m'.sink.contents = m.sink.contents ++ w ∧
      (w.length ≤ room → (m.withOutputRoom (some room)).evaluate fuel a =
        (v, m'.withOutputRoom (some (room - w.length)))) ∧
      (room < w.length → ∃ fuel' e n,
        (m.withOutputRoom (some room)).evaluate fuel' a = (.failed e, n) ∧
          e.cause = .failure .outputFull ∧
          n.sink.contents = m.sink.contents ++ w.take room) := by
  obtain ⟨w, hw⟩ := (grows_of_evaluate h hv).contents
  refine ⟨w, hw.symm, ?_⟩
  rcases hroom.in_step_or_cut a room fuel with hrun | ⟨k, hk, hblames, hcut⟩
  · obtain ⟨hle, hlimited⟩ := evaluate_of_in_step h hv hw.symm hrun
    exact ⟨fun _ => hlimited, fun hlt => absurd hle (Nat.not_le_of_lt hlt)⟩
  · obtain ⟨hlt, hlimited⟩ := exists_evaluate_of_cut h hv hw.symm hk hblames hcut
    exact ⟨fun hle => absurd hlt (Nat.not_lt_of_le hle), fun _ => hlimited⟩

/-- The second of two texts that are written inside a quotation fits in part only.  The empty text
after it would fit in any case, but is not reached. -/
theorem second_text_cut_short :
    let m := Machine.bare { capacity := 3 }
    let a : Activation :=
      { entry := .outer, cursor := .ofSource (.ofText "[*ab write *cde write] do \"\" write") }
    ((m.withOutputRoom (some 5)).evaluate 20 a).1 = .done ∧
      ∃ fuel e n, (m.withOutputRoom (some 3)).evaluate fuel a = (.failed e, n) ∧
        e.cause = .failure .outputFull ∧ n.sink.contents = Utf8.encode "abc" := by
  intro m a
  have hverdict : (m.evaluate 20 a).1 = .done := by decide +kernel
  have hdone : m.evaluate 20 a = (.done, (m.evaluate 20 a).2) := by rw [← hverdict]
  have hcontents : (m.evaluate 20 a).2.sink.contents = Utf8.encode "abcde" := by decide
  have hstart : m.sink.contents = [] := rfl
  have hroom : m.Unlimited := rfl
  obtain ⟨w, hw, hfits, -⟩ := evaluate_withOutputRoom hroom hdone (by simp) 5
  obtain ⟨w', hw', -, hcut⟩ := evaluate_withOutputRoom hroom hdone (by simp) 3
  rw [hcontents, hstart, List.nil_append] at hw hw'
  subst hw hw'
  refine ⟨?_, ?_⟩
  · rw [hfits (Nat.le_refl 5)]
  · exact hcut (by decide)

end Machine

end StackScript
