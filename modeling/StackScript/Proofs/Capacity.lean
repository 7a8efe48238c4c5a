import StackScript.Proofs.Variation
/-!
# The capacity of the stack

A run takes notice of the capacity only where a value finds no place.  With more places it takes the
same steps up to there, and then has more values than the smaller capacity allows.  So a capacity
that the run never exceeds makes no difference to it, and any smaller one fails it.
-/

namespace StackScript

namespace Stack

def widen (places : Nat) (s : Stack) : Stack := { s with room := s.room + places }

theorem size_le_capacity (s : Stack) : s.size ≤ s.capacity := Nat.le_add_right _ _

theorem answer_of_room (values : List Value) (room : Nat) (v : Value) :
    ({ values, room := room + 1 } : Stack).answer v = .done { values := v :: values, room } := rfl

variable (places : Nat) (s : Stack)

theorem push_widen (v : Value) :
    (s.widen places).push v = (s.push v).map (widen places) ∨
      s.push v = .error .overflow ∧
        ∃ t, (s.widen places).push v = .ok t ∧ s.capacity < t.size := by
  obtain ⟨values, room⟩ := s
  cases room with
  | zero =>
    cases places with
    | zero => exact .inl rfl
    | succ places => exact .inr ⟨rfl, ⟨v :: values, 0 + places⟩, rfl, Nat.lt_succ_self _⟩
  | succ room =>
    left
    have hroom : room + 1 + places = room + places + 1 := Nat.add_right_comm room 1 places
    simp only [push, widen, hroom]
    rfl

theorem popAs_widen {α : Type} (expected : Kind) (select : Value → Option α) :
    (s.widen places).popAs expected select =
      ((s.popAs expected select).1, (s.popAs expected select).2.widen places) := by
  obtain ⟨values, room⟩ := s
  cases values with
  | nil => rfl
  | cons v rest =>
    have hroom : room + places + 1 = room + 1 + places := Nat.add_right_comm room places 1
    simp only [popAs, widen, hroom]
    cases select v <;> rfl

theorem popValue_widen :
    (s.widen places).popValue = (s.popValue.1, s.popValue.2.widen places) := by
  obtain ⟨values, room⟩ := s
  cases values with
  | nil => rfl
  | cons v rest =>
    have hroom : room + places + 1 = room + 1 + places := Nat.add_right_comm room places 1
    simp only [popValue, pop, widen, hroom]

theorem apply_widen (op : Operation) :
    (s.widen places).apply op = (s.apply op).map (widen places) := by
  obtain ⟨values, room⟩ := s
  have hone : room + places + 1 = room + 1 + places := Nat.add_right_comm room places 1
  have htwo : room + places + 2 = room + 2 + places := Nat.add_right_comm room places 2
  cases op with
  | drop =>
    cases values with
    | nil => rfl
    | cons v rest => simp only [apply, drop, widen, hone, Outcome.map]
  | pick =>
    cases values with
    | nil => rfl
    | cons v rest =>
      cases v with
      | integer n =>
        simp only [apply, pick, widen, peek]
        split
        · simp only [Outcome.map, widen, hone]
        · cases rest[n.toInt.toNat]? with
          | none => simp only [Outcome.map, widen, hone]
          | some copy => simp only [answer_of_room, Outcome.map, widen]
      | _ => simp only [apply, pick, widen, hone, Outcome.map]
  | swap =>
    match values with
    | [] => rfl
    | [_] => rfl
    | _ :: _ :: _ => rfl
  | rot =>
    match values with
    | [] => rfl
    | [_] => rfl
    | [_, _] => rfl
    | _ :: _ :: _ :: _ => rfl
  | pair p =>
    match values with
    | [] => rfl
    | [_] => rfl
    | b :: a :: rest =>
      simp only [apply, pair, widen, htwo]
      split
      · simp only [← htwo, answer_of_room, Outcome.map, widen, hone]
      · rfl
      · rfl
  | convert c =>
    cases values with
    | nil => rfl
    | cons v rest =>
      simp only [apply, convert, widen]
      split
      · simp only [answer_of_room, Outcome.map, widen]
      · simp only [Outcome.map, widen, hone]

theorem change_widen : Change (widen places) .overflow (fun s t => s.capacity < t.size) where
  push := push_widen places
  popAs expected select s := .inl (popAs_widen places s expected select)
  popValue s := .inl (popValue_widen places s)
  apply s op := .inl (apply_widen places s op)

end Stack

namespace Machine

def withCapacity (capacity : Nat) (m : Machine) : Machine :=
  m.withStack { values := m.stack.values, room := capacity - m.stack.size }

def widen (places : Nat) (m : Machine) : Machine := m.withStack (m.stack.widen places)

theorem capacity_withCapacity {capacity : Nat} {m : Machine} (h : m.stack.size ≤ capacity) :
    (m.withCapacity capacity).stack.capacity = capacity :=
  Nat.add_sub_cancel' h

theorem withCapacity_of_le {capacity : Nat} {m : Machine} (h : m.stack.capacity ≤ capacity) :
    m.withCapacity capacity = m.widen (capacity - m.stack.capacity) := by
  have hroom : capacity - m.stack.size =
      m.stack.room + (capacity - (m.stack.size + m.stack.room)) := by
    have hle : m.stack.size + m.stack.room ≤ capacity := h
    omega
  rw [withCapacity, hroom]
  rfl

theorem withCapacity_self {capacity : Nat} {m : Machine} (h : m.stack.capacity = capacity) :
    m.withCapacity capacity = m := by
  have hroom : capacity - m.stack.size = m.stack.room := by
    rw [← h]
    exact Nat.add_sub_cancel_left _ _
  rw [withCapacity, hroom]
  rfl

theorem withCapacity_widen (capacity places : Nat) (m : Machine) :
    (m.widen places).withCapacity capacity = m.withCapacity capacity := rfl

theorem widen_withCapacity {capacity : Nat} {m : Machine} (hsize : m.stack.size ≤ capacity)
    (hle : capacity ≤ m.stack.capacity) :
    (m.withCapacity capacity).widen (m.stack.capacity - capacity) = m := by
  have hcapacity := capacity_withCapacity hsize
  have hwiden := withCapacity_of_le (m := m.withCapacity capacity)
    (Nat.le_trans (Nat.le_of_eq hcapacity) hle)
  rw [hcapacity] at hwiden
  have htwice : (m.withCapacity capacity).withCapacity m.stack.capacity =
      m.withCapacity m.stack.capacity := rfl
  rw [← hwiden, htwice]
  exact withCapacity_self rfl

theorem capacity_iterate (m : Machine) (a : Activation) (k : Nat) :
    (Progress.next^[k] (m.start [] a)).machine.stack.capacity = m.stack.capacity :=
  ((m.follows_start [] a).trans (Progress.later_iterate _ k).follows).capacity

/-- A run with more places takes the same steps, unless a value finds no place in the run with
fewer: then there are more values in the other run than that one can hold. -/
theorem in_step_or_overflow (m : Machine) (a : Activation) (places n : Nat) :
    Progress.next^[n] ((m.widen places).start [] a) =
        (Progress.next^[n] (m.start [] a)).map (widen places) ∨
      ∃ k ≤ n, (Progress.next^[k] (m.start [] a)).Blames .overflow ∧
        m.stack.capacity <
          (Progress.next^[k] ((m.widen places).start [] a)).machine.stack.size := by
  have hsim := (Stack.change_widen places).simulation
  have hwiden : Variation.apply { stack := Stack.widen places } = widen places := rfl
  have hstart := Variation.start_apply (g := { stack := Stack.widen places }) rfl rfl m [] a
  rw [hwiden] at hsim hstart
  rw [hstart]
  rcases hsim.iterate (m.start [] a) n with hrun | ⟨k, hk, hblames, hsize⟩
  · exact .inl hrun
  · rw [capacity_iterate] at hsize
    exact .inr ⟨k + 1, hk, hblames, hsize⟩

variable {fuel capacity : Nat} {m m' : Machine} {a : Activation} {v : Verdict}

theorem evaluate_of_capacity_le (h : m.evaluate fuel a = (v, m')) (hv : v ≠ .unfinished)
    (ho : ∀ e, v = .failed e → e.cause ≠ .overflow) (hle : m.stack.capacity ≤ capacity) :
    (m.withCapacity capacity).evaluate fuel a = (v, m'.withCapacity capacity) := by
  have hend := Progress.iterate_of_run h hv
  have hcapacity : m'.stack.capacity = m.stack.capacity := by
    have hlast := capacity_iterate m a fuel
    rw [hend] at hlast
    exact hlast
  rw [withCapacity_of_le hle, withCapacity_of_le (Nat.le_trans (Nat.le_of_eq hcapacity) hle),
    hcapacity]
  apply Progress.run_of_iterate
  rcases in_step_or_overflow m a (capacity - m.stack.capacity) fuel with
    hrun | ⟨k, hk, hblames, -⟩
  · rw [hrun, hend]
    rfl
  · obtain ⟨e, he, hcause⟩ := hblames.exists_failed hk hend
    exact absurd hcause (ho e he)

private theorem evaluate_of_le_capacity (h : m.evaluate fuel a = (v, m')) (hv : v ≠ .unfinished)
    (hpeak : (m.start [] a).peak (·.machine.stack.size) fuel ≤ capacity)
    (hsize : m.stack.size ≤ capacity) (hle : capacity ≤ m.stack.capacity) :
    (m.withCapacity capacity).evaluate fuel a = (v, m'.withCapacity capacity) := by
  have hend := Progress.iterate_of_run h hv
  have hwide := widen_withCapacity hsize hle
  have hnarrow := capacity_withCapacity hsize
  have hsteps := in_step_or_overflow (m.withCapacity capacity) a (m.stack.capacity - capacity) fuel
  rw [hwide, hnarrow] at hsteps
  rcases hsteps with hrun | ⟨k, hk, -, hexceeds⟩
  · rw [hend] at hrun
    obtain ⟨n, hp, rfl⟩ := Progress.exists_of_map_eq_halted hrun.symm
    have hlast : n.stack.capacity = capacity := by
      have hkept := capacity_iterate (m.withCapacity capacity) a fuel
      rw [hp, hnarrow] at hkept
      exact hkept
    rw [withCapacity_widen, withCapacity_self hlast]
    exact Progress.run_of_iterate hp
  · have hbelow := Progress.le_peak (·.machine.stack.size) hk (m.start [] a)
    exact absurd (Nat.le_trans hbelow hpeak) (Nat.not_le_of_lt hexceeds)

private theorem exists_overflow_of_lt_peak (hsize : m.stack.size ≤ capacity)
    (hpeak : capacity < (m.start [] a).peak (·.machine.stack.size) fuel) :
    ∃ k, (Progress.next^[k] ((m.withCapacity capacity).start [] a)).Blames .overflow := by
  obtain ⟨k, -, hreached⟩ := Progress.exists_eq_peak (·.machine.stack.size) fuel (m.start [] a)
  have hholds := (Progress.next^[k] (m.start [] a)).machine.stack.size_le_capacity
  rw [capacity_iterate, hreached] at hholds
  have hle : capacity ≤ m.stack.capacity := Nat.le_trans (Nat.le_of_lt hpeak) hholds
  have hsteps := in_step_or_overflow (m.withCapacity capacity) a (m.stack.capacity - capacity) k
  rw [widen_withCapacity hsize hle] at hsteps
  rcases hsteps with hrun | ⟨j, -, hblames, -⟩
  · rw [hrun, Progress.machine_map] at hreached
    have hfits :=
      (Progress.next^[k] ((m.withCapacity capacity).start [] a)).machine.stack.size_le_capacity
    rw [capacity_iterate, capacity_withCapacity hsize] at hfits
    exact absurd (Nat.le_trans (Nat.le_of_eq hreached.symm) hfits) (Nat.not_le_of_lt hpeak)
  · exact ⟨j, hblames⟩

/-- The capacity of the stack makes no difference to a run that ends, other than for want of a
place, as long as the stack can hold the largest number of values that it has at any time.  With a
smaller capacity, one that the values at the start leave room for, the run fails for want of a
place.  A step takes its operands off before it puts a value on, so no time within a step has more
values than those at its start and at its end. -/
theorem evaluate_withCapacity {fuel : Nat} {m m' : Machine} {a : Activation} {v : Verdict}
    (h : m.evaluate fuel a = (v, m')) (hv : v ≠ .unfinished)
    (ho : ∀ e, v = .failed e → e.cause ≠ .overflow) (capacity : Nat) :
    let peak := (m.start [] a).peak (·.machine.stack.size) fuel
    (peak ≤ capacity →
      (m.withCapacity capacity).evaluate fuel a = (v, m'.withCapacity capacity)) ∧
    (m.stack.size ≤ capacity → capacity < peak →
      ∃ fuel' e n, (m.withCapacity capacity).evaluate fuel' a = (.failed e, n) ∧
        e.cause = .overflow) := by
  intro peak
  refine ⟨?_, ?_⟩
  · intro hpeak
    have hfirst : (m.start [] a).machine.stack.size = m.stack.size := by
      unfold start
      split <;> rfl
    have hsize : m.stack.size ≤ capacity := by
      rw [← hfirst]
      exact Nat.le_trans (Progress.le_peak (·.machine.stack.size) (Nat.zero_le fuel) _) hpeak
    rcases Nat.le_total m.stack.capacity capacity with hle | hle
    · exact evaluate_of_capacity_le h hv ho hle
    · exact evaluate_of_le_capacity h hv hpeak hsize hle
  · intro hsize hpeak
    obtain ⟨k, hblames⟩ := exists_overflow_of_lt_peak hsize hpeak
    obtain ⟨e, n, hends, hcause⟩ := hblames.exists_ends
    obtain ⟨fuel', hrun⟩ := (Progress.ends_iff_exists_run (by simp)).mp hends.of_iterate
    exact ⟨fuel', e, n, hrun, hcause⟩

/-- A product of two copies never has more than two values on the stack, so two places are enough
and one is not. -/
theorem square_under_capacities :
    let m := Machine.bare { capacity := 5 }
    let a : Activation := { entry := .outer, cursor := .ofSource (.ofText "3 0 pick multiply") }
    ((m.withCapacity 2).evaluate 6 a).1 = .done ∧
      ∃ fuel e n, (m.withCapacity 1).evaluate fuel a = (.failed e, n) ∧ e.cause = .overflow := by
  intro m a
  have hverdict : (m.evaluate 6 a).1 = .done := by decide
  have hdone : m.evaluate 6 a = (.done, (m.evaluate 6 a).2) := by rw [← hverdict]
  have hpeak : (m.start [] a).peak (·.machine.stack.size) 6 = 2 := by decide
  obtain ⟨htwo, -⟩ := evaluate_withCapacity hdone (by simp) (by simp) 2
  obtain ⟨-, hone⟩ := evaluate_withCapacity hdone (by simp) (by simp) 1
  rw [hpeak] at htwo hone
  refine ⟨?_, ?_⟩
  · rw [htwo (Nat.le_refl 2)]
  · exact hone (by decide) (by decide)

end Machine

end StackScript
