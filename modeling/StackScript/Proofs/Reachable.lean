import Mathlib.Logic.Relation
import StackScript.Library
import StackScript.Proofs.Run
/-!
# Reachable states

The owner of a machine makes requests of it, one after the other.  Some are over at once, others
start a run.  `Progress.Later` is the order of time over all of it: the single steps of the runs and
the requests made when a run has returned.  A state is reachable when it is later than a new machine
in this sense, so what every step and every request preserves holds at every point of every run.
-/

namespace StackScript

/-- What the owner of a machine can ask of it. -/
inductive Request where
  /-- Run a source that is read from nowhere else. -/
  | execute (source : Source)
  /-- Run the line input itself as a script. -/
  | executeInput
  /-- Call a word, known or not, as if at the given place. -/
  | call (location : Location) (w : Word)
  | addWord (w : Word)
  | push (v : Value)
  | pop
  | popBoolean
  | popText
  | popQuotation
  /-- Apply an operation to the stack. -/
  | operate (op : Operation)
  /-- Use what the machine is connected to, in any way, while time passes. -/
  | outside (console : Console) (connection : Option Connection) (generator : Generator)
      (clock : Timestamp)

def Progress.ofOutcome : Outcome Machine → Progress
  | .done m => .halted .done m
  | .failed cause m => .halted (.failed (.ofCause cause)) m
  | .aborted fault m => .halted (.aborted fault) m

def Machine.popped {α : Type} (m : Machine) : Except Cause α × Stack → Progress
  | (.ok _, s) => .halted .done (m.withStack s)
  | (.error cause, s) => .halted (.failed (.ofCause cause)) (m.withStack s)

/-- What a machine does when a request is made of it. -/
def Machine.accept (m : Machine) : Request → Progress
  | .execute source => m.start [] { entry := .outer, cursor := .ofSource source }
  | .executeInput =>
    m.start [] { entry := .outer, cursor := .ofSource (.ofBytes []), shared := true }
  | .call location w => proceed [] ⟨location, some w.name⟩ (w.action.perform m)
  | .addWord w => .ofOutcome (m.addWord w)
  | .push v => .ofOutcome (m.answer v)
  | .pop => m.popped m.stack.popValue
  | .popBoolean => m.popped m.stack.popBoolean
  | .popText => m.popped m.stack.popText
  | .popQuotation => m.popped m.stack.popQuotation
  | .operate op => .ofOutcome ((m.stack.apply op).map m.withStack)
  | .outside console connection generator clock =>
    .halted .done { m with console, connection, generator, clock }

namespace Progress

/-- One step of a run, or a request made after the last one has returned. -/
inductive Leads : Progress → Progress → Prop
  | step (p : Progress) : Leads p p.next
  | request (v : Verdict) (m : Machine) (r : Request) (hv : v.returns) :
      Leads (.halted v m) (m.accept r)

/-- A state of a machine that comes after another one, by any number of steps and requests. -/
def Later : Progress → Progress → Prop := Relation.ReflTransGen Leads

/-- What every step and every request preserves is preserved for ever. -/
theorem Later.preserves {I : Progress → Prop} (hnext : ∀ p, I p → I p.next)
    (haccept : ∀ v m r, v.returns → I (.halted v m) → I (m.accept r))
    {p q : Progress} (h : Later p q) (hp : I p) : I q := by
  induction h with
  | refl => exact hp
  | tail _ hl ih =>
    cases hl with
    | step => exact hnext _ ih
    | request v m r hv => exact haccept v m r hv ih

theorem later_iterate (p : Progress) (n : Nat) : Later p (next^[n] p) := by
  induction n with
  | zero => exact Relation.ReflTransGen.refl
  | succ n ih =>
    rw [Function.iterate_succ_apply']
    exact Relation.ReflTransGen.tail ih (.step _)

theorem Ends.later {p : Progress} {v : Verdict} {m : Machine} (h : p.Ends v m) :
    Later p (.halted v m) := by
  obtain ⟨n, hn⟩ := h
  exact hn ▸ later_iterate p n

theorem later_of_request {v : Verdict} {m : Machine} {r : Request} {q : Progress}
    (hv : v.returns) (h : Later (m.accept r) q) : Later (.halted v m) q :=
  Relation.ReflTransGen.head (.request v m r hv) h

end Progress

/-- A machine fresh from its making: one that knows the native words only, or one that has run the
script of the standard words to its end. -/
inductive Machine.IsNew (s : Machine.Settings) : Machine → Prop
  | bare : IsNew s (.bare s)
  | full {fuel : Nat} {m : Machine} (h : Machine.full fuel s = (.done, m)) : IsNew s m

/-- A state that a machine with the given settings can get into. -/
def Progress.Reachable (s : Machine.Settings) (p : Progress) : Prop :=
  ∃ m, Machine.IsNew s m ∧ Progress.Later (.halted .done m) p

namespace Progress

theorem Reachable.later_bare {s : Machine.Settings} {p : Progress} (h : p.Reachable s) :
    Later (.halted .done (.bare s)) p := by
  obtain ⟨m, hm, hp⟩ := h
  cases hm with
  | bare => exact hp
  | full hf =>
    have he : (Machine.accept (.bare s) (.execute (.ofText Library.standardWords))).Ends .done m :=
      ends_of_run hf (by simp)
    exact Relation.ReflTransGen.trans (later_of_request rfl he.later) hp

theorem Reachable.later {s : Machine.Settings} {p q : Progress} (h : p.Reachable s)
    (hq : Later p q) : q.Reachable s := by
  obtain ⟨m, hm, hp⟩ := h
  exact ⟨m, hm, Relation.ReflTransGen.trans hp hq⟩

theorem Reachable.invariant {s : Machine.Settings} {I : Progress → Prop}
    (hbare : I (.halted .done (.bare s))) (hnext : ∀ p, I p → I p.next)
    (haccept : ∀ v m r, v.returns → I (.halted v m) → I (m.accept r))
    {p : Progress} (h : p.Reachable s) : I p :=
  h.later_bare.preserves hnext haccept hbare

end Progress

end StackScript
