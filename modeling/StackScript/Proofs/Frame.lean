import StackScript.Proofs.Variation
/-!
# Values below the stack

A script sees only the values that it was given: with others below them, and as many more places,
it does the same and leaves those others alone, unless it asks for a value that is not there.
-/

namespace StackScript

namespace Stack

/-- The stack with other values below its own, given from the bottom to the top, and with as many
places more. -/
def atop (below : List Value) (s : Stack) : Stack :=
  { values := s.values ++ below.reverse, room := s.room }

@[simp] theorem values_atop (below : List Value) (s : Stack) :
    (s.atop below).values = s.values ++ below.reverse := rfl

@[simp] theorem room_atop (below : List Value) (s : Stack) : (s.atop below).room = s.room := rfl

theorem toList_atop (below : List Value) (s : Stack) :
    (s.atop below).toList = below ++ s.toList := by
  simp [toList]

theorem capacity_atop (below : List Value) (s : Stack) :
    (s.atop below).capacity = s.capacity + below.length := by
  simp only [capacity, values_atop, room_atop, List.length_append, List.length_reverse]
  omega

variable (below : List Value) (s : Stack)

theorem push_atop (v : Value) : (s.atop below).push v = (s.push v).map (atop below) := by
  unfold push
  rw [room_atop]
  split <;> rfl

theorem answer_atop (v : Value) : (s.atop below).answer v = (s.answer v).map (atop below) := by
  unfold answer
  rw [push_atop]
  cases s.push v <;> rfl

theorem popAs_atop {α : Type} (expected : Kind) (select : Value → Option α) :
    (s.atop below).popAs expected select =
        ((s.popAs expected select).1, (s.popAs expected select).2.atop below) ∨
      s.popAs expected select = (.error .underflow, s) := by
  obtain ⟨values, room⟩ := s
  cases values with
  | nil => exact .inr rfl
  | cons v rest =>
    left
    simp only [atop, popAs, List.cons_append]
    cases select v <;> rfl

theorem popValue_atop :
    (s.atop below).popValue = (s.popValue.1, s.popValue.2.atop below) ∨
      s.popValue = (.error .underflow, s) := by
  obtain ⟨values, room⟩ := s
  cases values with
  | nil => exact .inr rfl
  | cons v rest => exact .inl rfl

/-- The only values that an operation looks at are its operands and, for a copy, the one it copies,
which must be above the others. -/
theorem apply_atop (op : Operation) :
    (s.atop below).apply op = (s.apply op).map (atop below) ∨
      ∃ t, s.apply op = .failed .underflow t := by
  obtain ⟨values, room⟩ := s
  cases op with
  | drop =>
    cases values with
    | nil => exact .inr ⟨_, rfl⟩
    | cons v rest => exact .inl rfl
  | pick =>
    cases values with
    | nil => exact .inr ⟨_, rfl⟩
    | cons v rest =>
      cases v with
      | integer n =>
        simp only [apply, pick, atop, List.cons_append, peek]
        split
        · exact .inr ⟨_, rfl⟩
        · cases hv : rest[n.toInt.toNat]? with
          | none => exact .inr ⟨_, rfl⟩
          | some copy =>
            left
            obtain ⟨hlt, -⟩ := List.getElem?_eq_some_iff.mp hv
            rw [List.getElem?_append_left hlt, hv]
            exact answer_atop below { values := rest, room := room + 1 } copy
      | _ => exact .inl rfl
  | swap =>
    match values with
    | [] => exact .inr ⟨_, rfl⟩
    | [_] => exact .inr ⟨_, rfl⟩
    | _ :: _ :: _ => exact .inl rfl
  | rot =>
    match values with
    | [] => exact .inr ⟨_, rfl⟩
    | [_] => exact .inr ⟨_, rfl⟩
    | [_, _] => exact .inr ⟨_, rfl⟩
    | _ :: _ :: _ :: _ => exact .inl rfl
  | pair p =>
    match values with
    | [] => exact .inr ⟨_, rfl⟩
    | [_] => exact .inr ⟨_, rfl⟩
    | b :: a :: rest =>
      left
      simp only [apply, pair, atop, List.cons_append]
      split
      · exact answer_atop below { values := rest, room := room + 2 } _
      · rfl
      · rfl
  | convert c =>
    cases values with
    | nil => exact .inr ⟨_, rfl⟩
    | cons v rest =>
      left
      simp only [apply, convert, atop, List.cons_append]
      split
      · exact answer_atop below { values := rest, room := room + 1 } _
      · rfl

theorem change_atop : Change (atop below) .underflow (fun _ _ => True) where
  push s v := .inl (push_atop below s v)
  popAs expected select s :=
    (popAs_atop below s expected select).imp_right fun hpop => ⟨hpop, fun _ => trivial⟩
  popValue s := (popValue_atop below s).imp_right fun hpop => ⟨hpop, fun _ => trivial⟩
  apply s op := (apply_atop below s op).imp_right fun ⟨t, happly⟩ => ⟨t, happly, trivial⟩

end Stack

namespace Machine

def atop (below : List Value) (m : Machine) : Machine :=
  m.withStack (m.stack.atop below)

/-- Above other values a run takes the same steps, until it finds too few values of its own. -/
theorem simulation_atop (below : List Value) :
    Simulation (atop below) fun p _ => p.Blames .underflow := by
  have hsim := (Stack.change_atop below).simulation
  have hatop : Variation.apply { stack := Stack.atop below } = atop below := rfl
  rw [hatop] at hsim
  exact hsim.weaken fun p q hescape => hescape.1

/-- The frame rule.  A script that comes to its end, other than for want of a value, comes to the
same end above any other values, with as many places more: it leaves the same values above the
others, and everything but the stack as it does without them. -/
theorem evaluate_atop {fuel : Nat} {m m' : Machine} {a : Activation} {v : Verdict}
    (h : m.evaluate fuel a = (v, m')) (hv : v ≠ .unfinished)
    (hu : ∀ e, v = .failed e → e.cause ≠ .underflow) (below : List Value) :
    (m.atop below).evaluate fuel a = (v, m'.atop below) ∧
      (m.atop below).stack.toList = below ++ m.stack.toList ∧
      (m.atop below).stack.capacity = m.stack.capacity + below.length ∧
      (m'.atop below).stack.toList = below ++ m'.stack.toList := by
  refine ⟨?_, m.stack.toList_atop below, m.stack.capacity_atop below, m'.stack.toList_atop below⟩
  have hend := Progress.iterate_of_run h hv
  have hsound : ∀ k ≤ fuel, ¬ (Progress.next^[k] (m.start [] a)).Blames .underflow := by
    intro k hk hb
    have hlast := hb.iterate (fuel - k)
    rw [← Function.iterate_add_apply, Nat.sub_add_cancel hk, hend] at hlast
    obtain ⟨e, he, hc⟩ := hlast
    exact hu e he hc
  have hsim := simulation_atop below
  have hstart : (m.atop below).start [] a = (m.start [] a).map (atop below) :=
    (hsim.start m [] a).resolve_right (hsound 0 (Nat.zero_le fuel))
  apply Progress.run_of_iterate
  rw [hstart]
  rcases hsim.iterate (m.start [] a) fuel with hrun | ⟨k, hk, hb⟩
  · rw [hrun, hend]
    rfl
  · exact absurd hb (hsound (k + 1) hk)

/-- A copied value lands above a text that was there before, which stays. -/
theorem copied_value_above_others :
    let m := Machine.bare { capacity := 2 }
    let a : Activation := { entry := .outer, cursor := .ofSource (.ofText "7 [0 pick] do") }
    (m.evaluate 12 a).2.stack.size = 2 ∧
      ((m.atop [.text "kept"]).evaluate 12 a).1 = .done ∧
      ((m.atop [.text "kept"]).evaluate 12 a).2.stack.toList =
        .text "kept" :: (m.evaluate 12 a).2.stack.toList := by
  intro m a
  have hverdict : (m.evaluate 12 a).1 = .done := by decide
  have hdone : m.evaluate 12 a = (.done, (m.evaluate 12 a).2) := by rw [← hverdict]
  obtain ⟨hrun, -, -, hstack⟩ := evaluate_atop hdone (by simp) (by simp) [.text "kept"]
  rw [hrun, hstack]
  exact ⟨by decide, rfl, List.singleton_append⟩

end Machine

end StackScript
