import StackScript.Proofs.Evolution
/-!
# Calls of primitives

The calls of primitives that a run makes are read off its steps (`Progress.call?`).  What a machine
is supplied with from outside, its line input and its connection, is used up by three things only:
the calls of `read`, those of `retrieve`, and the tokens of a script that is read from the line
input (`Progress.supply_next`).
-/

namespace StackScript

/-- A call of a primitive: the machine that it finds, and what the run goes on with. -/
structure Call where
  primitive : Primitive
  machine : Machine
  layer : Layer
  calls : List Activation

/-- How a run goes on that makes a call. -/
def Call.next (c : Call) : Progress :=
  Machine.proceed c.calls c.layer (c.primitive.perform c.machine)

namespace Machine

def primitive? (m : Machine) (t : Token) : Option Primitive :=
  match t.form with
  | .call name =>
    match m.dictionary.find? name with
    | some w =>
      match w.action with
      | .primitive p => some p
      | .script _ => none
    | none => none
  | _ => none

theorem meaning_of_primitive? {m : Machine} {t : Token} {p : Primitive}
    (h : m.primitive? t = some p) : (m.meaning t).2 = p.perform m := by
  unfold primitive? at h
  split at h
  · rename_i name hform
    split at h
    · rename_i w hfind
      split at h
      · rename_i q haction
        cases h
        simp only [meaning, hform, hfind, haction, Action.perform]
      · cases h
    · cases h
  · cases h

/-- What a machine is supplied with from outside. -/
def supply (m : Machine) : List UInt8 × Option Connection :=
  (m.console.input, m.connection)

theorem Changes.supply {uses : Resource → Prop} {m n : Machine} (h : m.Changes uses n)
    (hinput : ¬ uses .input) (hpeer : ¬ uses .peer) : n.supply = m.supply :=
  Prod.ext (h.input hinput) (h.connection hpeer)

theorem changes_perform (m : Machine) (p : Primitive) :
    m.Changes p.Uses (p.perform m).machine := by
  rw [← p.run_routine]
  exact p.within_routine.changes m

theorem connection_perform (m : Machine) {p : Primitive} (h : p ≠ .retrieve) :
    (p.perform m).machine.connection = m.connection :=
  (m.changes_perform p).connection (by cases p <;> simp_all [Primitive.Uses, Primitive.resource?])

theorem input_perform (m : Machine) {p : Primitive} (h : p ≠ .read) :
    (p.perform m).machine.console.input = m.console.input :=
  (m.changes_perform p).input (by cases p <;> simp_all [Primitive.Uses, Primitive.resource?])

/-- What a token may use in a machine. -/
def Uses (m : Machine) (t : Token) (resource : Resource) : Prop :=
  resource = .stack ∨ ∃ p, m.primitive? t = some p ∧ p.resource? = some resource

theorem within_meaning (m : Machine) (t : Token) :
    (t.routine m.dictionary).Within (m.Uses t) := by
  obtain ⟨location, form⟩ := t
  cases form with
  | call name =>
    simp only [Token.routine]
    cases hfind : m.dictionary.find? name with
    | none => exact Routine.within_number name (.inl rfl)
    | some w =>
      dsimp only
      cases haction : w.action with
      | primitive p =>
        have hp : m.primitive? ⟨location, .call name⟩ = some p := by
          simp only [primitive?, hfind, haction]
        exact p.within_routine.mono fun _ => Or.imp_right fun h => ⟨p, hp, h⟩
      | script body => simp [Action.routine, Routine.Within, Act.resources]
  | _ => simp [Token.routine, Routine.Within, Act.resources, Uses]

theorem changes_meaning (m : Machine) (t : Token) :
    m.Changes (m.Uses t) (m.meaning t).2.machine := by
  rw [meaning_eq]
  exact (m.within_meaning t).changes m

theorem supply_meaning {m : Machine} {t : Token} (h : m.primitive? t = none) :
    (m.meaning t).2.machine.supply = m.supply :=
  (m.changes_meaning t).supply (by simp [Uses, h]) (by simp [Uses, h])

theorem changes_endPass (m : Machine) (code : String) (count : Int64) :
    m.Changes (· = .stack) (m.endPass code count).machine := by
  have hwithin : (Routine.again code count).Within (· = .stack) :=
    Routine.within_again code count rfl
  rw [← run_again]
  exact hwithin.changes m

theorem supply_start (m : Machine) (calls : List Activation) (a : Activation) :
    (m.start calls a).machine.supply = m.supply := by
  unfold start
  split <;> rfl

theorem supply_proceed (calls : List Activation) (layer : Layer) (effect : Effect) :
    (proceed calls layer effect).machine.supply = effect.machine.supply := by
  cases effect with
  | settled outcome => cases outcome <;> rfl
  | enter code m => exact m.supply_start calls _
  | pass code count m => exact m.supply_start calls _

theorem supply_leave (m : Machine) (calls : List Activation) (entry : Entry) :
    (m.leave calls entry).machine.supply = m.supply := by
  cases entry with
  | outer => rfl
  | call layer => rfl
  | pass layer code count =>
    rw [leave, supply_proceed]
    exact (m.changes_endPass code count).supply (by simp) (by simp)

theorem supply_raise (m : Machine) (e : Error) (calls : List Activation) :
    (m.raise e calls).machine.supply = m.supply := by
  cases calls <;> rfl

end Machine

namespace Progress

/-- The machine when the next token has been read. -/
def fetched : Progress → Machine
  | .running m (a :: _) => (m.token a).2.2
  | p => p.machine

/-- The primitive that the next step calls. -/
def call? : Progress → Option Call
  | .running m (a :: calls) =>
    match m.token a with
    | (.ok t, b, n) => (n.primitive? t).map fun p => ⟨p, n, (n.meaning t).1, b :: calls⟩
    | (.error _, _, _) => none
  | _ => none

def callsIn : Nat → Progress → List Call
  | 0, _ => []
  | n + 1, p => p.call?.toList ++ p.next.callsIn n

theorem form_ne_endOfInput_of_primitive? {m : Machine} {t : Token} {p : Primitive}
    (h : m.primitive? t = some p) : t.form ≠ .endOfInput := by
  intro hform
  simp [Machine.primitive?, hform] at h

theorem next_of_call? {p : Progress} {c : Call} (h : p.call? = some c) :
    p.next = c.next ∧ c.machine = p.fetched := by
  cases p with
  | raising e m calls => cases h
  | halted v m => cases h
  | running m calls =>
    cases calls with
    | nil => cases h
    | cons a calls =>
      simp only [call?] at h
      simp only [next, Machine.step, fetched]
      split at h
      · rename_i t b n htoken
        obtain ⟨primitive, hprimitive, rfl⟩ := Option.map_eq_some_iff.mp h
        rw [htoken]
        refine ⟨?_, rfl⟩
        simp only [if_neg (form_ne_endOfInput_of_primitive? hprimitive), Machine.obey,
          Machine.meaning_of_primitive? hprimitive]
        rfl
      · cases h

/-- A step that calls no primitive takes from outside what its token takes, and nothing more. -/
theorem supply_next {p : Progress} (h : p.call? = none) :
    p.next.machine.supply = p.fetched.supply := by
  cases p with
  | raising e m calls => exact m.supply_raise e calls
  | halted v m => rfl
  | running m calls =>
    cases calls with
    | nil => rfl
    | cons a calls =>
      simp only [call?] at h
      simp only [next, Machine.step, fetched]
      rcases htoken : m.token a with ⟨result, b, n⟩
      rw [htoken] at h
      cases result with
      | error cause => rfl
      | ok t =>
        dsimp only
        split
        · exact n.closed.supply_leave calls b.entry
        · rw [Machine.obey, Machine.supply_proceed]
          exact Machine.supply_meaning (Option.map_eq_none_iff.mp h)

theorem connection_fetched (p : Progress) : p.fetched.connection = p.machine.connection := by
  cases p with
  | raising e m calls => rfl
  | halted v m => rfl
  | running m calls =>
    cases calls with
    | nil => rfl
    | cons a calls =>
      simp only [fetched, Machine.token]
      split <;> rfl

end Progress

end StackScript
