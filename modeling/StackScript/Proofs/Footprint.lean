import StackScript.Proofs.Routine
/-!
# What primitives leave alone

Every question that a primitive asks, and every last thing that it does, is about a few resources of
the machine.  What a routine does not use stays as it is (`Routine.Within.changes`), and what each of
its questions and its last thing preserves is preserved by the whole (`Routine.Within.preserves`).
-/

namespace StackScript

/-- What primitives work on in a machine. -/
inductive Resource where
  | stack
  | words
  | generator
  | input
  | output
  | peer
  | clock

/-- The second machine differs from the first one in resources in use only. -/
structure Machine.Changes (uses : Resource → Prop) (m n : Machine) : Prop where
  stack : ¬ uses .stack → n.stack = m.stack
  dictionary : ¬ uses .words → n.dictionary = m.dictionary
  generator : ¬ uses .generator → n.generator = m.generator
  input : ¬ uses .input → n.console.input = m.console.input
  sink : ¬ uses .output → n.console.sink = m.console.sink
  connection : ¬ uses .peer → n.connection = m.connection
  clock : ¬ uses .clock → n.clock = m.clock
  maxNesting : n.maxNesting = m.maxNesting
  depth : n.depth = m.depth

namespace Machine

variable {uses uses' : Resource → Prop} {m n k : Machine}

theorem Changes.refl (uses : Resource → Prop) (m : Machine) : m.Changes uses m where
  stack _ := rfl
  dictionary _ := rfl
  generator _ := rfl
  input _ := rfl
  sink _ := rfl
  connection _ := rfl
  clock _ := rfl
  maxNesting := rfl
  depth := rfl

theorem Changes.trans (h : m.Changes uses n) (h' : n.Changes uses k) : m.Changes uses k where
  stack hp := (h'.stack hp).trans (h.stack hp)
  dictionary hp := (h'.dictionary hp).trans (h.dictionary hp)
  generator hp := (h'.generator hp).trans (h.generator hp)
  input hp := (h'.input hp).trans (h.input hp)
  sink hp := (h'.sink hp).trans (h.sink hp)
  connection hp := (h'.connection hp).trans (h.connection hp)
  clock hp := (h'.clock hp).trans (h.clock hp)
  maxNesting := h'.maxNesting.trans h.maxNesting
  depth := h'.depth.trans h.depth

theorem Changes.console (h : m.Changes uses n) (hinput : ¬ uses .input)
    (houtput : ¬ uses .output) : n.console = m.console := by
  have hin := h.input hinput
  have hout := h.sink houtput
  cases hm : m.console
  cases hn : n.console
  simp_all

theorem Changes.mono (h : m.Changes uses n) (huses : ∀ resource, uses resource → uses' resource) :
    m.Changes uses' n where
  stack hp := h.stack (mt (huses _) hp)
  dictionary hp := h.dictionary (mt (huses _) hp)
  generator hp := h.generator (mt (huses _) hp)
  input hp := h.input (mt (huses _) hp)
  sink hp := h.sink (mt (huses _) hp)
  connection hp := h.connection (mt (huses _) hp)
  clock hp := h.clock (mt (huses _) hp)
  maxNesting := h.maxNesting
  depth := h.depth

theorem changes_withStack (m : Machine) (s : Stack) (huses : uses .stack) :
    m.Changes uses (m.withStack s) := by
  constructor <;> simp [withStack, huses]

theorem changes_answer (m : Machine) (v : Value) (huses : uses .stack) :
    m.Changes uses (m.answer v).state := by
  rw [answer, Outcome.state_map]
  exact m.changes_withStack _ huses

private theorem changes_consult {α : Type} (m : Machine)
    (use : Connection → Except Failure α × Connection) (huses : uses .peer) :
    m.Changes uses (m.consult use).2 := by
  unfold consult
  cases m.connection with
  | none => exact .refl uses m
  | some connection => constructor <;> simp [huses]

private theorem changes_beginPass (m : Machine) (code : String) (count : Int64)
    (huses : uses .stack) : m.Changes uses (m.beginPass code count).machine := by
  unfold beginPass
  split
  · exact .refl uses m
  · exact m.changes_withStack _ huses

private theorem changes_addWord (m : Machine) (w : Word) (huses : uses .words) :
    m.Changes uses (m.addWord w).state := by
  unfold addWord
  split
  · constructor <;> simp [Outcome.state, huses]
  · exact .refl uses m

private theorem changes_write (m : Machine) (text : String) (huses : uses .output) :
    m.Changes uses (m.write text).2 := by
  constructor <;> simp [write, Console.write, huses]

private theorem changes_performRead (m : Machine) (hinput : uses .input) (hstack : uses .stack) :
    m.Changes uses m.performRead.state := by
  have hsink : m.console.readLine.2.sink = m.console.sink := by
    unfold Console.readLine
    split
    · rfl
    · dsimp only
      split <;> rfl
  have hread : m.Changes uses m.readLine.2 := by
    constructor <;> simp [readLine, hsink, hinput]
  unfold performRead
  split <;> rename_i h <;> rw [h] at hread
  · exact hread.trans (changes_answer _ _ hstack)
  · exact hread

end Machine

def Query.resource {α : Type} : Query α → Resource
  | .operand _ => .stack
  | .below _ => .generator
  | .fraction => .generator
  | .time => .clock
  | .send _ => .peer
  | .receive => .peer

def Act.resources : Act → List Resource
  | .rest => []
  | .fail _ => []
  | .enter _ => []
  | .beginPass _ _ => [.stack]
  | .answer _ => [.stack]
  | .operate _ => [.stack]
  | .define _ => [.words]
  | .write _ => [.output]
  | .read => [.input, .stack]
  | .wait _ => [.clock]

/-- No resources are used but the given ones. -/
def Routine.Within (uses : Resource → Prop) : Routine → Prop
  | .act a => ∀ resource ∈ a.resources, uses resource
  | .ask q next => uses q.resource ∧ ∀ a, (next a).Within uses

theorem Query.changes {α : Type} (q : Query α) (m : Machine) :
    m.Changes (· = q.resource) (q.perform m).2 := by
  cases q with
  | operand o => exact m.changes_withStack _ rfl
  | time => exact .refl _ m
  | send text => exact m.changes_consult _ rfl
  | receive => exact m.changes_consult _ rfl
  | _ => constructor <;> simp [perform, resource]

theorem Query.keeps {α : Type} (q : Query α) (m : Machine) :
    (q.perform m).2.dictionary = m.dictionary ∧ (q.perform m).2.console = m.console := by
  have hchanges := q.changes m
  refine ⟨hchanges.dictionary ?_, hchanges.console ?_ ?_⟩ <;> cases q <;> simp [resource]

theorem Act.changes (a : Act) (m : Machine) : m.Changes (· ∈ a.resources) (a.perform m).machine := by
  cases a with
  | rest => exact .refl _ m
  | fail cause => exact .refl _ m
  | enter code => exact .refl _ m
  | beginPass code count => exact m.changes_beginPass code count (by simp [resources])
  | answer v => exact m.changes_answer v (by simp [resources])
  | operate op =>
    rw [perform, Effect.machine, Outcome.state_map]
    exact m.changes_withStack _ (by simp [resources])
  | define w => exact m.changes_addWord w (by simp [resources])
  | write text =>
    have huses : .output ∈ (Act.write text).resources := by simp [resources]
    have hwrite := m.changes_write text huses
    rw [perform]
    split <;> rename_i h <;> rw [h] at hwrite <;> exact hwrite
  | read => exact m.changes_performRead (by simp [resources]) (by simp [resources])
  | wait clock => constructor <;> simp [perform, Effect.machine, Outcome.state, resources]

namespace Routine

variable {uses : Resource → Prop} {r : Routine}

/-- What every question and every last thing preserves is preserved by the whole. -/
theorem Within.preserves {R : Machine → Machine → Prop}
    (htrans : ∀ {m n k}, R m n → R n k → R m k)
    (hquery : ∀ {α : Type} (q : Query α) (m : Machine), uses q.resource → R m (q.perform m).2)
    (hact : ∀ (a : Act) (m : Machine), (∀ resource ∈ a.resources, uses resource) →
      R m (a.perform m).machine)
    (h : r.Within uses) (m : Machine) : R m (r.run m).machine := by
  induction r generalizing m with
  | act a => exact hact a m h
  | ask q next ih =>
    have hq := hquery q m h.1
    rw [run]
    rcases hperform : q.perform m with ⟨result, n⟩
    rw [hperform] at hq
    cases result with
    | error cause => exact hq
    | ok a => exact htrans hq (ih a (h.2 a) n)

theorem Within.changes (h : r.Within uses) (m : Machine) : m.Changes uses (r.run m).machine :=
  h.preserves .trans (fun q m hq => (q.changes m).mono fun _ hresource => hresource ▸ hq)
    (fun a m ha => (a.changes m).mono ha) m

theorem Within.mono {uses' : Resource → Prop} (h : r.Within uses)
    (huses : ∀ resource, uses resource → uses' resource) : r.Within uses' := by
  induction r with
  | act a => exact fun resource hresource => huses resource (h resource hresource)
  | ask q next ih => exact ⟨huses _ h.1, fun a => ih a (h.2 a)⟩

theorem within_take {o : Operand} {next : o.Content → Routine} :
    (take o next).Within uses ↔ uses .stack ∧ ∀ a, (next a).Within uses :=
  Iff.rfl

theorem within_true (r : Routine) : r.Within fun _ => True := by
  induction r with
  | act a => exact fun _ _ => trivial
  | ask q next ih => exact ⟨trivial, ih⟩

private theorem within_drawBelow (v : Value) (hstack : uses .stack)
    (hgenerator : uses .generator) : (drawBelow v).Within uses := by
  cases v with
  | integer bound =>
    rw [drawBelow]
    split
    · simp [Within, Query.resource, Act.resources, hstack, hgenerator]
    · simp [Within, Act.resources]
  | float bound => simp [drawBelow, Within, Query.resource, Act.resources, hstack, hgenerator]
  | _ => simp [drawBelow, Within, Act.resources]

private theorem within_writeValue (v : Value) (houtput : uses .output) :
    (writeValue v).Within uses := by
  rw [writeValue]
  cases Machine.writtenText? v <;> simp [Within, Act.resources, houtput]

private theorem within_waitFor (v : Value) (hclock : uses .clock) : (waitFor v).Within uses := by
  refine ⟨hclock, fun now => ?_⟩
  dsimp only
  cases Machine.waitedUntil? now v <;> simp [Within, Act.resources, hclock]

theorem within_again (code : String) (count : Int64) (hstack : uses .stack) :
    (again code count).Within uses := by
  refine ⟨hstack, fun again => ?_⟩
  cases again <;> simp [Within, Act.resources, hstack]

theorem within_number (name : String) (hstack : uses .stack) : (number name).Within uses := by
  rw [number]
  cases Integer.parse name <;> simp [Within, Act.resources, hstack]

end Routine

def Primitive.resource? : Primitive → Option Resource
  | .define => some .words
  | .random => some .generator
  | .write => some .output
  | .read => some .input
  | .now => some .clock
  | .wait => some .clock
  | .retrieve => some .peer
  | _ => none

def Primitive.Uses (p : Primitive) (resource : Resource) : Prop :=
  resource = .stack ∨ p.resource? = some resource

theorem Primitive.within_routine (p : Primitive) : p.routine.Within p.Uses := by
  cases p with
  | random => exact ⟨.inl rfl, fun v => Routine.within_drawBelow v (.inl rfl) (.inr rfl)⟩
  | write => exact ⟨.inl rfl, fun v => Routine.within_writeValue v (.inr rfl)⟩
  | wait => exact ⟨.inl rfl, fun v => Routine.within_waitFor v (.inr rfl)⟩
  | now => simp [routine, Routine.Within, Query.resource, Act.resources, Uses, resource?]
  | retrieve =>
    simp [routine, Routine.within_take, Routine.exchange, Routine.Within, Query.resource,
      Act.resources, Uses, resource?]
  | _ => simp [routine, Routine.within_take, Routine.Within, Act.resources, Uses, resource?]

end StackScript
