import StackScript.Proofs.PrimitiveCall
/-!
# Output that has been written

What a run writes comes behind what was written before, and the number of bytes that its output takes
in all stays the same (`Progress.sink_iterate`).  An output without a limit stays without one.
-/

namespace StackScript

namespace Sink

def add (s : Sink) (bytes : List UInt8) : Sink :=
  { s with written := bytes.reverse ++ s.written }

def limit (s : Sink) : Option Nat :=
  s.room.map (s.contents.length + ·)

/-- The second sink comes from the first one by writing. -/
structure Grows (s t : Sink) : Prop where
  contents : s.contents <+: t.contents
  limit : t.limit = s.limit

variable {s t u : Sink}

theorem contents_add (s : Sink) (bytes : List UInt8) :
    (s.add bytes).contents = s.contents ++ bytes := by
  simp [contents, add]

theorem add_add (s : Sink) (bytes more : List UInt8) :
    (s.add bytes).add more = s.add (bytes ++ more) := by
  simp [add]

theorem write_of_unlimited {s : Sink} (h : s.room = none) (bytes : List UInt8) :
    s.write bytes = (.ok (), s.add bytes) := by
  simp [write, add, h]

theorem Grows.refl (s : Sink) : s.Grows s :=
  ⟨List.prefix_refl _, rfl⟩

theorem Grows.of_eq (h : t = s) : s.Grows t :=
  h ▸ .refl s

theorem Grows.trans (h : s.Grows t) (h' : t.Grows u) : s.Grows u :=
  ⟨h.contents.trans h'.contents, h'.limit.trans h.limit⟩

theorem grows_write (s : Sink) (bytes : List UInt8) : s.Grows (s.write bytes).2 := by
  obtain ⟨written, room⟩ := s
  cases room with
  | none => exact ⟨by simp [write, contents], rfl⟩
  | some room =>
    by_cases hfits : bytes.length ≤ room
    · refine ⟨by simp [write, contents, hfits], ?_⟩
      simp only [limit, write, contents, hfits, if_true, Option.map_some, Option.some.injEq,
        List.length_reverse, List.length_append]
      omega
    · refine ⟨by simp [write, contents, hfits], ?_⟩
      simp only [limit, write, contents, hfits, if_false, Option.map_some, Option.some.injEq,
        List.length_reverse, List.length_append, List.length_take]
      omega

end Sink

/-- The output takes everything that is written. -/
def Machine.Unlimited (m : Machine) : Prop :=
  m.console.sink.room = none

namespace Machine

def sink (m : Machine) : Sink := m.console.sink

theorem unlimited_iff_limit (m : Machine) : m.Unlimited ↔ m.sink.limit = none :=
  Option.map_eq_none_iff.symm

private theorem sink_act (m : Machine) (a : Act) : m.sink.Grows (a.perform m).machine.sink := by
  cases a with
  | write text =>
    have hwrite : m.sink.Grows (m.write text).2.sink := m.sink.grows_write (Utf8.encode text)
    rw [Act.perform]
    split <;> rename_i h <;> rw [h] at hwrite <;> exact hwrite
  | _ => exact .of_eq ((Act.changes _ m).sink (by simp [Act.resources]))

theorem sink_run (m : Machine) (r : Routine) : m.sink.Grows (r.run m).machine.sink :=
  r.within_true.preserves (R := fun m n => m.sink.Grows n.sink) .trans
    (fun q m _ => .of_eq (congrArg Console.sink (q.keeps m).2)) (fun a m _ => m.sink_act a) m

theorem sink_meaning (m : Machine) (t : Token) : m.sink.Grows (m.meaning t).2.machine.sink := by
  rw [meaning_eq]
  exact m.sink_run _

theorem sink_token (m : Machine) (a : Activation) : (m.token a).2.2.sink = m.sink := by
  unfold token
  split <;> rfl

theorem console_proceed (calls : List Activation) (layer : Layer) (effect : Effect) :
    (proceed calls layer effect).machine.console = effect.machine.console := by
  have hstart (m : Machine) (a : Activation) : (m.start calls a).machine.console = m.console := by
    unfold start
    split <;> rfl
  cases effect with
  | settled outcome => cases outcome <;> rfl
  | enter code m => exact hstart m _
  | pass code count m => exact hstart m _

theorem sink_proceed (calls : List Activation) (layer : Layer) (effect : Effect) :
    (proceed calls layer effect).machine.sink = effect.machine.sink :=
  congrArg Console.sink (console_proceed calls layer effect)

theorem sink_leave (m : Machine) (calls : List Activation) (entry : Entry) :
    (m.leave calls entry).machine.sink = m.sink := by
  cases entry with
  | outer => rfl
  | call layer => rfl
  | pass layer code count =>
    rw [leave, sink_proceed]
    exact (m.changes_endPass code count).sink (by simp)

theorem sink_step (m : Machine) (calls : List Activation) :
    m.sink.Grows (m.step calls).machine.sink := by
  cases calls with
  | nil => exact .refl _
  | cons a calls =>
    rw [← m.sink_token a, step]
    rcases m.token a with ⟨result, b, n⟩
    cases result with
    | error cause => exact .refl _
    | ok t =>
      dsimp only
      split
      · exact .of_eq (n.closed.sink_leave calls b.entry)
      · rw [obey, sink_proceed]
        exact n.sink_meaning t

end Machine

namespace Progress

theorem sink_next (p : Progress) : p.machine.sink.Grows p.next.machine.sink := by
  cases p with
  | running m calls => exact m.sink_step calls
  | raising e m calls => cases calls <;> exact .refl _
  | halted v m => exact .refl _

theorem sink_iterate (p : Progress) (n : Nat) :
    p.machine.sink.Grows (next^[n] p).machine.sink := by
  induction n generalizing p with
  | zero => exact .refl _
  | succ n ih => exact p.sink_next.trans (ih p.next)

theorem unlimited_iterate {p : Progress} (h : p.machine.Unlimited) (n : Nat) :
    (next^[n] p).machine.Unlimited := by
  rw [Machine.unlimited_iff_limit] at h ⊢
  exact (p.sink_iterate n).limit.trans h

end Progress

end StackScript
