import StackScript.Machine.Step
/-!
# What primitives are made of

A primitive asks its machine for one thing after the other, and then does one last thing
(`Primitive.run_routine`).  The same holds of a token (`Machine.meaning_eq`) and of the end of a
pass (`Machine.run_again`).  So what holds of the few questions and the few last things holds of all
that a machine does between two texts, by induction over routines.
-/

namespace StackScript

theorem Outcome.state_map {σ τ : Type} (f : σ → τ) (o : Outcome σ) :
    (o.map f).state = f o.state := by
  cases o <;> rfl

/-- The machine that an effect goes on with. -/
def Effect.machine : Effect → Machine
  | .settled outcome => outcome.state
  | .enter _ m => m
  | .pass _ _ m => m

/-- What a primitive takes the top value for. -/
inductive Operand where
  | value
  | boolean
  | text
  | quotation

@[reducible] def Operand.Content : Operand → Type
  | .value => Value
  | .boolean => Bool
  | .text => String
  | .quotation => String

def Operand.pop : (o : Operand) → Stack → Except Cause o.Content × Stack
  | .value => Stack.popValue
  | .boolean => Stack.popBoolean
  | .text => Stack.popText
  | .quotation => Stack.popQuotation

/-- What a primitive asks its machine for. -/
inductive Query : Type → Type where
  | operand (o : Operand) : Query o.Content
  /-- A random number below a bound. -/
  | below (bound : Nat) : Query Nat
  /-- A random number between zero and one. -/
  | fraction : Query Float
  | time : Query Timestamp
  /-- That a text reaches the peer. -/
  | send (text : String) : Query Unit
  | receive : Query String

/-- What a primitive does in the end. -/
inductive Act where
  | rest
  | fail (cause : Cause)
  | enter (code : String)
  | beginPass (code : String) (count : Int64)
  | answer (v : Value)
  | operate (op : Operation)
  | define (w : Word)
  | write (text : String)
  | read
  | wait (clock : Timestamp)

/-- Some questions, one after the other, and a last thing to do. -/
inductive Routine : Type 1 where
  | act (a : Act)
  | ask {α : Type} (q : Query α) (next : α → Routine)

namespace Machine

def consult {α : Type} (m : Machine) (use : Connection → Except Failure α × Connection) :
    Except Cause α × Machine :=
  match m.connection with
  | none => (.error .notConnected, m)
  | some connection =>
    let (result, connection) := use connection
    (result.mapError .failure, { m with connection := some connection })

end Machine

def Query.perform {α : Type} (m : Machine) : Query α → Except Cause α × Machine
  | .operand o => ((o.pop m.stack).1, m.withStack (o.pop m.stack).2)
  | .below bound =>
    (.ok (m.generator.below bound).1, { m with generator := (m.generator.below bound).2 })
  | .fraction => (.ok m.generator.fraction.1, { m with generator := m.generator.fraction.2 })
  | .time => (.ok m.clock, m)
  | .send text => m.consult fun c => c.send text
  | .receive => m.consult Connection.receive

def Act.perform (m : Machine) : Act → Effect
  | .rest => .settled (.done m)
  | .fail cause => .settled (.failed cause m)
  | .enter code => .enter code m
  | .beginPass code count => m.beginPass code count
  | .answer v => .settled (m.answer v)
  | .operate op => .settled ((m.stack.apply op).map m.withStack)
  | .define w => .settled (m.addWord w)
  | .write text =>
    match m.write text with
    | (.ok (), m) => .settled (.done m)
    | (.error f, m) => .settled (.failed (.failure f) m)
  | .read => .settled m.performRead
  | .wait clock => .settled (.done { m with clock })

/-- Ask for everything in turn, and give up when something is not to be had. -/
def Routine.run : Routine → Machine → Effect
  | .act a, m => a.perform m
  | .ask q next, m =>
    match q.perform m with
    | (.error cause, m) => .settled (.failed cause m)
    | (.ok a, m) => (next a).run m

namespace Routine

def take (o : Operand) (next : o.Content → Routine) : Routine :=
  .ask (.operand o) next

def drawBelow : Value → Routine
  | .integer bound =>
    if 0 < bound then
      .ask (.below bound.toInt.toNat) fun n => .act (.answer (.integer (Int64.ofNat n)))
    else .act (.fail (.randomBound bound))
  | .float bound => .ask .fraction fun x => .act (.answer (.integer (x * bound).toInt64))
  | v => .act (.fail (.invalidType v.kind))

def writeValue (v : Value) : Routine :=
  match Machine.writtenText? v with
  | none => .act (.fail (.invalidType v.kind))
  | some text => .act (.write text)

def waitFor (v : Value) : Routine :=
  .ask .time fun now =>
    match Machine.waitedUntil? now v with
    | none => .act (.fail (.invalidType v.kind))
    | some clock => .act (.wait clock)

def exchange (text : String) : Routine :=
  .ask (.send text) fun _ => .ask .receive fun code => .act (.enter code)

/-- Another pass of a repeated text, if the last one left true. -/
def again (code : String) (count : Int64) : Routine :=
  take .boolean fun (again : Bool) =>
    if again then .act (.beginPass code (count + 1)) else .act .rest

def number (name : String) : Routine :=
  match Integer.parse name with
  | .ok n => .act (.answer (.integer n))
  | .error _ => .act (.fail (.unknownWord name))

end Routine

open Routine (take)

/-- What a primitive is made of. -/
def Primitive.routine : Primitive → Routine
  | .operate op => .act (.operate op)
  | .run => take .quotation fun code => .act (.enter code)
  | .choose =>
    take .quotation fun (otherwise : String) => take .quotation fun (code : String) =>
      take .boolean fun (condition : Bool) => .act (.enter (if condition then code else otherwise))
  | .cycle => take .quotation fun code => .act (.beginPass code 0)
  | .define =>
    take .quotation fun body => take .text fun name => .act (.define (Word.scripted name body))
  | .random => take .value Routine.drawBelow
  | .write => take .value Routine.writeValue
  | .read => .act .read
  | .now => .ask .time fun now => .act (.answer (.timestamp now))
  | .wait => take .value Routine.waitFor
  | .retrieve => take .text Routine.exchange

def Action.routine : Action → Routine
  | .primitive p => p.routine
  | .script body => .act (.enter body)

namespace Token

/-- What a token is made of, where the given words are known. -/
def routine (d : Dictionary) (t : Token) : Routine :=
  match t.form with
  | .endOfInput => .act .rest
  | .comment _ => .act .rest
  | .quotation code => .act (.answer (.quotation code))
  | .text text => .act (.answer (.text text))
  | .textWord text => .act (.answer (.text text))
  | .call name =>
    match d.find? name with
    | some w => w.action.routine
    | none => .number name

/-- The layer that a token adds to its failures. -/
def layer (d : Dictionary) (t : Token) : Layer :=
  match t.form with
  | .call name => ⟨t.location, (d.find? name).map fun _ => name⟩
  | _ => ⟨t.location, none⟩

end Token

namespace Routine

theorem run_take (o : Operand) (next : o.Content → Routine) (m : Machine) :
    (take o next).run m = m.taking o.pop fun a m => (next a).run m := by
  simp only [take, run, Query.perform, Machine.taking]
  rcases o.pop m.stack with ⟨result, s⟩
  cases result <;> rfl

theorem run_drawBelow (v : Value) (m : Machine) :
    (drawBelow v).run m = .settled (m.drawBelow v) := by
  cases v with
  | integer bound =>
    simp only [drawBelow, Machine.drawBelow]
    split <;> rfl
  | _ => rfl

theorem run_writeValue (v : Value) (m : Machine) :
    (writeValue v).run m = .settled (m.writeValue v) := by
  rw [writeValue, Machine.writeValue]
  cases Machine.writtenText? v with
  | none => rfl
  | some text =>
    simp only [run, Act.perform]
    rcases m.write text with ⟨result, n⟩
    cases result <;> rfl

theorem run_waitFor (v : Value) (m : Machine) :
    (waitFor v).run m = .settled (m.waitFor v) := by
  simp only [waitFor, run, Query.perform, Machine.waitFor]
  cases Machine.waitedUntil? m.clock v <;> rfl

theorem run_exchange (text : String) (m : Machine) : (exchange text).run m = m.exchange text := by
  unfold exchange Machine.exchange
  rw [run, Query.perform, Machine.consult]
  cases m.connection with
  | none => rfl
  | some connection =>
    dsimp only
    rcases connection.send text with ⟨result, connection⟩
    cases result with
    | error f => rfl
    | ok sent =>
      change run (.ask .receive fun code => .act (.enter code))
        { m with connection := some connection } = _
      rw [run, Query.perform, Machine.consult]
      dsimp only
      rcases connection.receive with ⟨result, connection⟩
      cases result <;> rfl

end Routine

namespace Primitive

/-- A primitive does what it is made of. -/
theorem run_routine (p : Primitive) (m : Machine) : p.routine.run m = p.perform m := by
  cases p with
  | operate op => rfl
  | run => exact Routine.run_take _ _ m
  | choose =>
    simp only [routine, Routine.run_take]
    rfl
  | cycle => exact Routine.run_take _ _ m
  | define =>
    simp only [routine, Routine.run_take]
    rfl
  | random =>
    simp only [routine, Routine.run_take, Routine.run_drawBelow]
    rfl
  | write =>
    simp only [routine, Routine.run_take, Routine.run_writeValue]
    rfl
  | read => rfl
  | now => rfl
  | wait =>
    simp only [routine, Routine.run_take, Routine.run_waitFor]
    rfl
  | retrieve =>
    simp only [routine, Routine.run_take, Routine.run_exchange]
    rfl

end Primitive

theorem Action.run_routine (action : Action) (m : Machine) :
    action.routine.run m = action.perform m := by
  cases action with
  | primitive p => exact p.run_routine m
  | script body => rfl

namespace Machine

theorem run_number (m : Machine) (name : String) :
    (Routine.number name).run m = .settled (m.number name) := by
  rw [Routine.number, number]
  cases Integer.parse name <;> rfl

theorem meaning_eq (m : Machine) (t : Token) :
    m.meaning t = (t.layer m.dictionary, (t.routine m.dictionary).run m) := by
  obtain ⟨location, form⟩ := t
  cases form with
  | call name =>
    simp only [meaning, Token.layer, Token.routine]
    cases m.dictionary.find? name with
    | none => exact congrArg (Prod.mk _) (m.run_number name).symm
    | some w => exact congrArg (Prod.mk _) (w.action.run_routine m).symm
  | _ => rfl

theorem run_again (m : Machine) (code : String) (count : Int64) :
    (Routine.again code count).run m = m.endPass code count := by
  rw [Routine.again, Routine.run_take, endPass]
  congr 1
  funext again n
  cases again <;> rfl

end Machine

end StackScript
