import StackScript.Proofs.Footprint
import StackScript.Proofs.Simulation
/-!
# Changed machines

Some fields of a machine may be changed (`Machine.Variation`).  It is enough to show of the
operations on these fields that the change makes no difference to them, or else one that is allowed
for (`Machine.Variation.Unnoticed`).  Then it makes none to routines
(`Machine.Variation.Unnoticed.run`), to tokens (`Machine.Variation.Unnoticed.meaning`) and to whole
runs (`Machine.Variation.simulation`).

A change of the stack alone is one of `Stack.Change`: it makes no difference to the operations of the
stack, unless these fail on the unchanged stack for one particular cause.
-/

namespace StackScript

namespace Stack

/-- A change of stacks that makes no difference to an operation, unless the operation fails on the
unchanged stack for the given cause.  In that case `parts` holds between the stack that is left and
the one that is left after the change. -/
structure Change (g : Stack → Stack) (cause : Cause) (parts : Stack → Stack → Prop) : Prop where
  push : ∀ s v, (g s).push v = (s.push v).map g ∨
    s.push v = .error cause ∧ ∃ t, (g s).push v = .ok t ∧ parts s t
  popAs : ∀ {α : Type} (expected : Kind) (select : Value → Option α) (s : Stack),
    (g s).popAs expected select = ((s.popAs expected select).1, g (s.popAs expected select).2) ∨
      s.popAs expected select = (.error cause, s) ∧ ∀ t, parts s t
  popValue : ∀ s, (g s).popValue = (s.popValue.1, g s.popValue.2) ∨
    s.popValue = (.error cause, s) ∧ ∀ t, parts s t
  apply : ∀ s op, (g s).apply op = (s.apply op).map g ∨
    ∃ t, s.apply op = .failed cause t ∧ parts t ((g s).apply op).state

namespace Change

theorem refl (cause : Cause) : Change id cause (fun _ _ => False) where
  push s v := by
    left
    rw [id, Except.map_id, id]
  popAs _ _ _ := .inl rfl
  popValue _ := .inl rfl
  apply s op := by
    left
    rw [id]
    cases s.apply op <;> rfl

variable {g : Stack → Stack} {cause : Cause} {parts : Stack → Stack → Prop}

theorem answer (h : Change g cause parts) (s : Stack) (v : Value) :
    (g s).answer v = (s.answer v).map g ∨
      s.answer v = .failed cause s ∧ ∃ t, (g s).answer v = .done t ∧ parts s t := by
  rcases h.push s v with hpush | ⟨hfull, t, hpush, hparts⟩
  · left
    rw [Stack.answer, hpush, Stack.answer]
    cases s.push v <;> rfl
  · right
    rw [Stack.answer, hfull, Stack.answer, hpush]
    exact ⟨rfl, t, rfl, hparts⟩

theorem pop (h : Change g cause parts) (o : Operand) (s : Stack) :
    o.pop (g s) = ((o.pop s).1, g (o.pop s).2) ∨ o.pop s = (.error cause, s) ∧ ∀ t, parts s t := by
  cases o with
  | value => exact h.popValue s
  | boolean => exact h.popAs _ _ s
  | text => exact h.popAs _ _ s
  | quotation => exact h.popAs _ _ s

end Change

end Stack

namespace Machine

/-- A change of some fields of a machine. -/
structure Variation where
  stack : Stack → Stack := id
  dictionary : Dictionary → Dictionary := id
  console : Console → Console := id
  maxNesting : Nat → Nat := id
  depth : Nat → Nat := id

namespace Variation

def apply (g : Variation) (m : Machine) : Machine :=
  { m with
    stack := g.stack m.stack
    dictionary := g.dictionary m.dictionary
    console := g.console m.console
    maxNesting := g.maxNesting m.maxNesting
    depth := g.depth m.depth }

/-- The second effect is the first one in a changed machine, or the two are a pair of `escape`. -/
def Agrees (g : Variation) (escape : Effect → Effect → Prop) (effect effect' : Effect) : Prop :=
  effect' = effect.map g.apply ∨ escape effect effect'

/-- A change makes no difference to the operations on the given resources of a machine, or else these
come to effects of `escape`. -/
structure Unnoticed (g : Variation) (uses : Resource → Prop) (escape : Effect → Effect → Prop)
    (m : Machine) : Prop where
  stack : ∃ cause left, Stack.Change g.stack cause left ∧
    ∀ n effect, left n.stack effect.machine.stack → escape (.settled (.failed cause n)) effect
  define : uses .words → ∀ w,
    (g.dictionary m.dictionary).define w = (m.dictionary.define w).map g.dictionary ∨
      ∃ d, m.dictionary.define w = .ok d ∧
        ∀ n effect, n.dictionary = d → escape (.settled (.done n)) effect
  readLine : uses .input →
    (g.console m.console).readLine = (m.console.readLine.1, g.console m.console.readLine.2)
  write : uses .output → ∀ text,
    (g.console m.console).write text =
        ((m.console.write text).1, g.console (m.console.write text).2) ∨
      ∃ f c c', m.console.write text = (.error f, c) ∧
        (g.console m.console).write text = (.ok (), c') ∧ ∀ n n', n.console = c → n'.console = c' →
          escape (.settled (.failed (.failure f) n)) (.settled (.done n'))

variable {g : Variation} {uses : Resource → Prop} {escape : Effect → Effect → Prop} {m n : Machine}

namespace Unnoticed

theorem of_eq (h : g.Unnoticed uses escape m) (hdictionary : n.dictionary = m.dictionary)
    (hconsole : n.console = m.console) : g.Unnoticed uses escape n where
  stack := h.stack
  define := by
    rw [hdictionary]
    exact h.define
  readLine := by
    rw [hconsole]
    exact h.readLine
  write := by
    rw [hconsole]
    exact h.write

private theorem query (h : g.Unnoticed uses escape m) {α : Type} (q : Query α) :
    q.perform (g.apply m) = ((q.perform m).1, g.apply (q.perform m).2) ∨
      ∃ cause n, q.perform m = (.error cause, n) ∧
        ∀ effect, escape (.settled (.failed cause n)) effect := by
  have hconsult {β : Type} (use : Connection → Except Failure β × Connection) :
      (g.apply m).consult use = ((m.consult use).1, g.apply (m.consult use).2) := by
    have hconnection : (g.apply m).connection = m.connection := rfl
    rw [consult, consult, hconnection]
    cases m.connection <;> rfl
  cases q with
  | operand o =>
    obtain ⟨cause, left, hchange, hleft⟩ := h.stack
    rcases hchange.pop o m.stack with hpop | ⟨hpop, hparts⟩
    · left
      have hstack : (g.apply m).stack = g.stack m.stack := rfl
      rw [Query.perform, hstack, hpop]
      rfl
    · right
      refine ⟨cause, m.withStack m.stack, by rw [Query.perform, hpop], fun effect => ?_⟩
      exact hleft _ _ (hparts _)
  | send text => exact .inl (hconsult _)
  | receive => exact .inl (hconsult _)
  | _ => exact .inl rfl

private theorem answer (h : g.Unnoticed uses escape m) (n : Machine) (v : Value) :
    g.Agrees escape (.settled (n.answer v)) (.settled ((g.apply n).answer v)) := by
  obtain ⟨cause, left, hchange, hleft⟩ := h.stack
  have hstack : (g.apply n).stack = g.stack n.stack := rfl
  rw [Machine.answer, Machine.answer, hstack]
  rcases hchange.answer n.stack v with hanswer | ⟨hfull, t, hanswer, hparts⟩
  · left
    rw [hanswer]
    cases n.stack.answer v <;> rfl
  · right
    rw [hfull, hanswer]
    exact hleft _ _ hparts

private theorem beginPass (h : g.Unnoticed uses escape m) (code : String) (count : Int64) :
    g.Agrees escape (m.beginPass code count) ((g.apply m).beginPass code count) := by
  obtain ⟨cause, left, hchange, hleft⟩ := h.stack
  have hstack : (g.apply m).stack = g.stack m.stack := rfl
  rw [Machine.beginPass, Machine.beginPass, hstack]
  rcases hchange.push m.stack (.integer count) with hpush | ⟨hfull, t, hpush, hparts⟩
  · left
    rw [hpush]
    cases m.stack.push (.integer count) <;> rfl
  · right
    rw [hfull, hpush]
    exact hleft _ _ hparts

private theorem operate (h : g.Unnoticed uses escape m) (op : Operation) :
    g.Agrees escape (Act.perform m (.operate op)) (Act.perform (g.apply m) (.operate op)) := by
  obtain ⟨cause, left, hchange, hleft⟩ := h.stack
  have hstack : (g.apply m).stack = g.stack m.stack := rfl
  rw [Act.perform, Act.perform, hstack]
  rcases hchange.apply m.stack op with happly | ⟨s, hfailed, hparts⟩
  · left
    rw [happly]
    cases m.stack.apply op <;> rfl
  · right
    rw [hfailed]
    apply hleft
    rw [Effect.machine, Outcome.state_map]
    exact hparts

private theorem addWord (h : g.Unnoticed uses escape m) (hwords : uses .words) (w : Word) :
    g.Agrees escape (.settled (m.addWord w)) (.settled ((g.apply m).addWord w)) := by
  have hdictionary : (g.apply m).dictionary = g.dictionary m.dictionary := rfl
  rw [Machine.addWord, Machine.addWord, hdictionary]
  rcases h.define hwords w with hsame | ⟨d, hd, hescape⟩
  · left
    rw [hsame]
    cases m.dictionary.define w <;> rfl
  · right
    rw [hd]
    exact hescape _ _ rfl

private theorem writes (h : g.Unnoticed uses escape m) (houtput : uses .output) (text : String) :
    g.Agrees escape (Act.perform m (.write text)) (Act.perform (g.apply m) (.write text)) := by
  have hconsole : (g.apply m).console = g.console m.console := rfl
  simp only [Act.perform, Machine.write, hconsole]
  rcases h.write houtput text with hwrite | ⟨f, c, c', hfailed, hdone, hescape⟩
  · left
    rw [hwrite]
    rcases m.console.write text with ⟨result, console⟩
    cases result <;> rfl
  · right
    rw [hfailed, hdone]
    exact hescape _ _ rfl rfl

private theorem reads (h : g.Unnoticed uses escape m) (hinput : uses .input) :
    g.Agrees escape (Act.perform m .read) (Act.perform (g.apply m) .read) := by
  have hconsole : (g.apply m).console = g.console m.console := rfl
  simp only [Act.perform, performRead, Machine.readLine, hconsole, h.readLine hinput]
  rcases m.console.readLine with ⟨result, console⟩
  cases result with
  | error failure => exact .inl rfl
  | ok line => exact h.answer { m with console } _

private theorem act (h : g.Unnoticed uses escape m) {a : Act}
    (ha : ∀ resource ∈ a.resources, uses resource) :
    g.Agrees escape (a.perform m) (a.perform (g.apply m)) := by
  cases a with
  | beginPass code count => exact h.beginPass code count
  | answer v => exact h.answer m v
  | operate op => exact h.operate op
  | define w => exact h.addWord (ha _ (by simp [Act.resources])) w
  | write text => exact h.writes (ha _ (by simp [Act.resources])) text
  | read => exact h.reads (ha _ (by simp [Act.resources]))
  | _ => exact .inl rfl

/-- A change that the operations do not notice is not noticed by a routine either. -/
theorem run {r : Routine} (h : g.Unnoticed uses escape m) (hr : r.Within uses) :
    g.Agrees escape (r.run m) (r.run (g.apply m)) := by
  induction r generalizing m with
  | act a => exact h.act hr
  | ask q next ih =>
    obtain ⟨hdictionary, hconsole⟩ := q.keeps m
    rw [Routine.run, Routine.run]
    rcases h.query q with hq | ⟨cause, n, hfailed, hescape⟩
    · rw [hq]
      rcases hperform : q.perform m with ⟨result, n⟩
      rw [hperform] at hdictionary hconsole
      cases result with
      | error cause => exact .inl rfl
      | ok a => exact ih a (h.of_eq hdictionary hconsole) (hr.2 a)
    · right
      rw [hfailed]
      exact hescape _

theorem endPass (h : g.Unnoticed uses escape m) (hstack : uses .stack) (code : String)
    (count : Int64) : g.Agrees escape (m.endPass code count) ((g.apply m).endPass code count) := by
  rw [← run_again, ← run_again]
  exact h.run (Routine.within_again code count hstack)

/-- A token does the same in the changed machine, if the name that it calls means the same there. -/
theorem meaning (h : g.Unnoticed uses escape m) {t : Token}
    (ht : (t.routine m.dictionary).Within uses)
    (hfind : ∀ name, t.form = .call name →
      (g.dictionary m.dictionary).find? name = m.dictionary.find? name) :
    ((g.apply m).meaning t).1 = (m.meaning t).1 ∧
      g.Agrees escape (m.meaning t).2 ((g.apply m).meaning t).2 := by
  have hdictionary : (g.apply m).dictionary = g.dictionary m.dictionary := rfl
  have hsame : t.layer (g.dictionary m.dictionary) = t.layer m.dictionary ∧
      t.routine (g.dictionary m.dictionary) = t.routine m.dictionary := by
    obtain ⟨location, form⟩ := t
    cases form with
    | call name =>
      simp only [Token.layer, Token.routine, hfind name rfl]
      exact ⟨trivial, trivial⟩
    | _ => exact ⟨rfl, rfl⟩
  rw [meaning_eq, meaning_eq, hdictionary, hsame.1, hsame.2]
  exact ⟨rfl, h.run ht⟩

end Unnoticed

theorem start_apply (hlimit : g.maxNesting = id) (hdepth : g.depth = id) (m : Machine)
    (calls : List Activation) (a : Activation) :
    (g.apply m).start calls a = (m.start calls a).map g.apply := by
  have hmaxNesting : (g.apply m).maxNesting = m.maxNesting := congrFun hlimit m.maxNesting
  have hcount : (g.apply m).depth = m.depth := congrFun hdepth m.depth
  have hopened : (g.apply m).opened = g.apply m.opened := by
    simp only [apply, opened, hdepth, id]
  rw [start, start, hmaxNesting, hcount, hopened]
  split <;> rfl

theorem define_id (d : Dictionary) (w : Word) : (id d).define w = (d.define w).map id := by
  rw [Except.map_id]
  rfl

theorem unnoticed_of_id (hstack : g.stack = id) (hdictionary : g.dictionary = id)
    (hconsole : g.console = id) (m : Machine) : g.Unnoticed uses escape m where
  stack := ⟨.overflow, fun _ _ => False, hstack ▸ .refl _, fun _ _ => False.elim⟩
  define _ w := .inl (hdictionary ▸ define_id _ w)
  readLine _ := hconsole ▸ rfl
  write _ _ := .inl (hconsole ▸ rfl)

theorem endPass_apply (hstack : g.stack = id) (m : Machine) (code : String) (count : Int64) :
    (g.apply m).endPass code count = (m.endPass code count).map g.apply := by
  have hunnoticed : g.Unnoticed (· = .stack) (fun _ _ => False) m := by
    constructor
    case stack => exact ⟨.overflow, fun _ _ => False, hstack ▸ .refl _, fun _ _ => False.elim⟩
    all_goals simp
  exact (hunnoticed.endPass rfl code count).resolve_right id

/-- A change that is not noticed by tokens, nor at the start and the end of a text, makes no
difference to runs. -/
theorem simulation {apart : Progress → Progress → Prop}
    (h : ∀ m, g.Unnoticed (fun _ => True) escape m) (hdictionary : g.dictionary = id)
    (hescape : ∀ effect effect' calls layer, escape effect effect' →
      apart (proceed calls layer effect) (proceed calls layer effect'))
    (htoken : ∀ m a, (g.apply m).token a = ((m.token a).1, (m.token a).2.1, g.apply (m.token a).2.2))
    (hclosed : ∀ m : Machine, (g.apply m).closed = g.apply m.closed)
    (hstart : ∀ m calls a, (g.apply m).start calls a = (m.start calls a).map g.apply ∨
      apart (m.start calls a) ((g.apply m).start calls a)) :
    Simulation g.apply apart where
  token := htoken
  closed := hclosed
  start := hstart
  meaning m t := by
    obtain ⟨hlayer, heffect | hapart⟩ :=
      (h m).meaning (Routine.within_true _) fun name _ => by rw [hdictionary]; rfl
    · exact .inl (Prod.ext hlayer heffect)
    · right
      intro calls
      rw [obey, obey, hlayer]
      exact hescape _ _ calls _ hapart
  endPass m code count := by
    rcases (h m).endPass trivial code count with heffect | hapart
    · exact .inl heffect
    · exact .inr fun calls layer => hescape _ _ calls layer hapart

end Variation

theorem stack_proceed (calls : List Activation) (layer : Layer) (effect : Effect) :
    (proceed calls layer effect).machine.stack = effect.machine.stack := by
  have hstart (m : Machine) (a : Activation) : (m.start calls a).machine.stack = m.stack := by
    unfold start
    split <;> rfl
  cases effect with
  | settled outcome => cases outcome <;> rfl
  | enter code m => exact hstart m _
  | pass code count m => exact hstart m _

end Machine

namespace Stack.Change

open Machine (Variation)

variable {g : Stack → Stack} {cause : Cause} {parts : Stack → Stack → Prop}

/-- With the changed stack a run takes the same steps, until the run with the unchanged one fails
for the cause. -/
theorem simulation (h : Change g cause parts) :
    Machine.Simulation (Variation.apply { stack := g }) fun p q =>
      p.Blames cause ∧ parts p.machine.stack q.machine.stack := by
  let escape (effect effect' : Effect) : Prop :=
    ∃ m, effect = .settled (.failed cause m) ∧ parts m.stack effect'.machine.stack
  have hunnoticed (m : Machine) :
      Variation.Unnoticed { stack := g } (fun _ => True) escape m := by
    constructor
    case stack => exact ⟨cause, parts, h, fun n _ hparts => ⟨n, rfl, hparts⟩⟩
    case define => exact fun _ w => .inl (Variation.define_id _ w)
    case readLine => exact fun _ => rfl
    case write => exact fun _ _ => .inl rfl
  apply Variation.simulation hunnoticed rfl
  case hescape =>
    rintro effect effect' calls layer ⟨m, rfl, hparts⟩
    rw [Machine.stack_proceed calls layer effect']
    exact ⟨rfl, hparts⟩
  case htoken =>
    intro m a
    unfold Machine.token
    split <;> rfl
  case hclosed => exact fun _ => rfl
  case hstart => exact fun m calls a => .inl (Variation.start_apply rfl rfl m calls a)

end Stack.Change

end StackScript
