import StackScript.Proofs.Routine
import StackScript.Proofs.WordCall
/-!
# What words fail with by themselves

Each primitive has its own reasons to fail (`Primitive.MayFail`): all of them may find operands that
do not fit, and a few can fail in a way that no other one can.  A source that cannot be read, a name
without a meaning and a text too deep inside others are not among these reasons: where a word fails
with one of them, it comes out of a text that the word runs.
-/

namespace StackScript

/-- Whether the cause is about the values on the stack, or the places for them. -/
def Cause.isOperand : Cause → Bool
  | .overflow => true
  | .underflow => true
  | .invalidType _ => true
  | .unexpectedType _ _ => true
  | .typeMismatch _ _ => true
  | _ => false

/-- Whether a primitive may fail with the cause by itself. -/
def Cause.isOwn : Cause → Bool
  | .malformed _ _ => false
  | .unknownWord _ => false
  | .tooDeep _ => false
  | _ => true

/-- The causes that a primitive may fail with by itself. -/
inductive Primitive.MayFail : Primitive → Cause → Prop
  | operands {p : Primitive} {cause : Cause} (h : cause.isOperand) : MayFail p cause
  | definedName (name : String) : MayFail .define (.alreadyDefined name)
  | bound (n : Int64) : MayFail .random (.randomBound n)
  | outputFull : MayFail .write (.failure .outputFull)
  | inputClosed : MayFail .read (.failure .inputClosed)
  | malformedLine : MayFail .read (.failure .malformedLine)
  | notConnected : MayFail .retrieve .notConnected
  | zeroByte : MayFail .retrieve (.failure .zeroByte)
  | messageCut : MayFail .retrieve (.failure .messageCut)
  | malformedMessage (defect : Utf8.Defect) : MayFail .retrieve (.failure (.malformedMessage defect))

theorem Cause.isOwn_of_isOperand {cause : Cause} (h : cause.isOperand) : cause.isOwn := by
  cases cause <;> first | rfl | cases h

theorem Primitive.MayFail.isOwn {p : Primitive} {cause : Cause} (h : p.MayFail cause) :
    cause.isOwn := by
  cases h with
  | operands h => exact Cause.isOwn_of_isOperand h
  | _ => rfl

theorem Primitive.MayFail.of_unexpectedEnd {p : Primitive} {f : Failure}
    (h : p.MayFail (.failure f)) (hkind : f.kind = .unexpectedEnd) :
    p = .read ∧ f = .inputClosed ∨ p = .retrieve ∧ f = .messageCut := by
  cases h with
  | operands h => cases h
  | inputClosed => exact .inl ⟨rfl, rfl⟩
  | messageCut => exact .inr ⟨rfl, rfl⟩
  | _ => cases hkind

def Outcome.FailsOnly {σ : Type} (P : Cause → Prop) : Outcome σ → Prop
  | .failed cause _ => P cause
  | _ => True

def Effect.FailsOnly (P : Cause → Prop) : Effect → Prop
  | .settled outcome => outcome.FailsOnly P
  | _ => True

variable {P Q : Cause → Prop}

theorem Outcome.FailsOnly.map {σ τ : Type} (f : σ → τ) {o : Outcome σ} (h : o.FailsOnly P) :
    (o.map f).FailsOnly P := by
  cases o <;> exact h

theorem Outcome.FailsOnly.mono {σ : Type} {o : Outcome σ} (h : o.FailsOnly P)
    (hsort : ∀ cause, P cause → Q cause) : o.FailsOnly Q := by
  cases o with
  | failed cause s => exact hsort cause h
  | _ => trivial

theorem Effect.FailsOnly.mono {effect : Effect} (h : effect.FailsOnly P)
    (hsort : ∀ cause, P cause → Q cause) : effect.FailsOnly Q := by
  cases effect with
  | settled outcome => exact Outcome.FailsOnly.mono h hsort
  | _ => trivial

namespace Stack

theorem cause_of_push {s : Stack} {v : Value} {cause : Cause} (h : s.push v = .error cause) :
    cause = .overflow := by
  unfold push at h
  split at h <;> cases h
  rfl

theorem failsOnly_answer (s : Stack) (v : Value) : (s.answer v).FailsOnly (·.isOperand) := by
  unfold answer
  split
  · trivial
  · rename_i h
    rw [cause_of_push h]
    rfl

private theorem isOperand_popAs {α : Type} {expected : Kind} {select : Value → Option α}
    {s : Stack} {cause : Cause} (h : (s.popAs expected select).1 = .error cause) :
    cause.isOperand := by
  unfold popAs at h
  split at h
  · cases h
    rfl
  · dsimp only at h
    split at h <;> cases h
    rfl

private theorem isOperand_popValue {s : Stack} {cause : Cause} (h : s.popValue.1 = .error cause) :
    cause.isOperand := by
  unfold popValue pop at h
  cases hvalues : s.values with
  | nil =>
    rw [hvalues] at h
    cases h
    rfl
  | cons v rest =>
    rw [hvalues] at h
    cases h

theorem isOperand_pop {o : Operand} {s : Stack} {cause : Cause} (h : (o.pop s).1 = .error cause) :
    cause.isOperand := by
  cases o with
  | value => exact isOperand_popValue h
  | boolean => exact isOperand_popAs h
  | text => exact isOperand_popAs h
  | quotation => exact isOperand_popAs h

private theorem failsOnly_pick (s : Stack) : s.pick.FailsOnly (·.isOperand) := by
  unfold pick
  split
  · rfl
  · dsimp only
    split
    · split
      · rfl
      · split
        · exact failsOnly_answer _ _
        · rename_i hpeek
          unfold peek at hpeek
          split at hpeek <;> cases hpeek
          rfl
    · rfl

private theorem failsOnly_pair (p : Pairing) (s : Stack) :
    (s.pair p).FailsOnly (·.isOperand) := by
  unfold pair
  split
  · dsimp only
    split
    · exact failsOnly_answer _ _
    · trivial
    · unfold Pairing.refuse
      split <;> rfl
  · rfl

private theorem failsOnly_convert (c : Conversion) (s : Stack) :
    (s.convert c).FailsOnly (·.isOperand) := by
  unfold convert
  split
  · rfl
  · dsimp only
    split
    · exact failsOnly_answer _ _
    · rfl

theorem failsOnly_apply (s : Stack) (op : Operation) :
    (s.apply op).FailsOnly (·.isOperand) := by
  cases op with
  | drop =>
    rw [apply, drop]
    split <;> trivial
  | pick => exact s.failsOnly_pick
  | swap =>
    rw [apply, swap]
    split <;> trivial
  | rot =>
    rw [apply, rot]
    split <;> trivial
  | pair p => exact s.failsOnly_pair p
  | convert c => exact s.failsOnly_convert c

end Stack

theorem Console.failure_of_write {c d : Console} {text : String} {f : Failure}
    (h : c.write text = (.error f, d)) : f = .outputFull := by
  have hsink : (c.sink.write (Utf8.encode text)).1 = .error f := congrArg Prod.fst h
  unfold Sink.write at hsink
  split at hsink
  · cases hsink
  · split at hsink <;> cases hsink
    rfl

theorem Console.failure_of_readLine {c d : Console} {f : Failure}
    (h : c.readLine = (.error f, d)) : f = .inputClosed ∧ c.input = [] ∨ f = .malformedLine := by
  unfold readLine at h
  split at h
  · rename_i hempty
    cases h
    exact .inl ⟨rfl, List.isEmpty_iff.mp hempty⟩
  · dsimp only at h
    split at h <;> cases h
    exact .inr rfl

theorem Connection.failure_of_send {c d : Connection} {text : String} {f : Failure}
    (h : c.send text = (.error f, d)) : f = .zeroByte := by
  unfold send Message.frame at h
  split at h
  · cases h
  · rename_i hframe
    split at hframe <;> cases hframe
    cases h
    rfl

theorem Connection.failure_of_receive {c d : Connection} {f : Failure}
    (h : c.receive = (.error f, d)) :
    f = .messageCut ∨ ∃ defect, f = .malformedMessage defect := by
  unfold receive at h
  dsimp only at h
  split at h
  · split at h <;> cases h
    exact .inr ⟨_, rfl⟩
  · rename_i hread
    unfold Message.read at hread
    split at hread <;> cases hread
    cases h
    exact .inl rfl

namespace Machine

theorem failsOnly_answer (m : Machine) (v : Value) : (m.answer v).FailsOnly (·.isOperand) :=
  (m.stack.failsOnly_answer v).map _

private theorem failsOnly_beginPass (m : Machine) (code : String) (count : Int64) :
    (m.beginPass code count).FailsOnly (·.isOperand) := by
  unfold beginPass
  split
  · rename_i h
    rw [Stack.cause_of_push h]
    rfl
  · trivial

end Machine

def Query.MayFail {α : Type} : Query α → Cause → Prop
  | .operand _, cause => cause.isOperand
  | .send _, cause => cause = .notConnected ∨ cause = .failure .zeroByte
  | .receive, cause =>
    cause = .notConnected ∨ cause = .failure .messageCut ∨
      ∃ defect, cause = .failure (.malformedMessage defect)
  | _, _ => False

def Act.MayFail : Act → Cause → Prop
  | .fail c, cause => cause = c
  | .define w, cause => cause = .alreadyDefined w.name
  | .write _, cause => cause = .failure .outputFull
  | .read, cause =>
    cause.isOperand ∨ cause = .failure .inputClosed ∨ cause = .failure .malformedLine
  | .beginPass _ _, cause => cause.isOperand
  | .answer _, cause => cause.isOperand
  | .operate _, cause => cause.isOperand
  | _, _ => False

/-- All causes that a routine may fail with are of this sort. -/
def Routine.FailsOnly (P : Cause → Prop) : Routine → Prop
  | .act a => ∀ cause, a.MayFail cause → P cause
  | .ask q next => (∀ cause, q.MayFail cause → P cause) ∧ ∀ a, (next a).FailsOnly P

private theorem mayFail_of_consult {α : Type} {m : Machine}
    {use : Connection → Except Failure α × Connection} {cause : Cause}
    (h : (m.consult use).1 = .error cause) :
    cause = .notConnected ∨ ∃ c d f, use c = (.error f, d) ∧ cause = .failure f := by
  unfold Machine.consult at h
  cases hconnection : m.connection with
  | none =>
    rw [hconnection] at h
    cases h
    exact .inl rfl
  | some c =>
    rw [hconnection] at h
    dsimp only at h
    rcases huse : use c with ⟨result, d⟩
    rw [huse] at h
    cases result with
    | error f =>
      cases h
      exact .inr ⟨c, d, f, huse, rfl⟩
    | ok a => cases h

theorem Query.mayFail_perform {α : Type} {q : Query α} {m : Machine} {cause : Cause}
    (h : (q.perform m).1 = .error cause) : q.MayFail cause := by
  cases q with
  | operand o => exact Stack.isOperand_pop h
  | send text =>
    rcases mayFail_of_consult h with rfl | ⟨c, d, f, hsend, rfl⟩
    · exact .inl rfl
    · exact .inr (congrArg _ (Connection.failure_of_send hsend))
  | receive =>
    rcases mayFail_of_consult h with rfl | ⟨c, d, f, hreceive, rfl⟩
    · exact .inl rfl
    · rcases Connection.failure_of_receive hreceive with rfl | ⟨defect, rfl⟩
      · exact .inr (.inl rfl)
      · exact .inr (.inr ⟨defect, rfl⟩)
  | _ => cases h

theorem Act.failsOnly_perform (a : Act) (m : Machine) : (a.perform m).FailsOnly a.MayFail := by
  cases a with
  | fail cause => rfl
  | beginPass code count => exact m.failsOnly_beginPass code count
  | answer v => exact m.failsOnly_answer v
  | operate op => exact (m.stack.failsOnly_apply op).map _
  | define w =>
    rw [perform, Machine.addWord, Dictionary.define]
    cases m.dictionary.find? w.name with
    | none => trivial
    | some v => rfl
  | write text =>
    rw [perform]
    split
    · trivial
    · rename_i h
      exact congrArg _ (Console.failure_of_write (congrArg (Prod.map id Machine.console) h))
  | read =>
    rw [perform, Machine.performRead]
    split
    · exact (Machine.failsOnly_answer _ _).mono fun _ => .inl
    · rename_i h
      rcases Console.failure_of_readLine (congrArg (Prod.map id Machine.console) h) with
        ⟨rfl, -⟩ | rfl
      · exact .inr (.inl rfl)
      · exact .inr (.inr rfl)
  | _ => trivial

theorem Routine.FailsOnly.run {r : Routine} (h : r.FailsOnly P) (m : Machine) :
    (r.run m).FailsOnly P := by
  induction r generalizing m with
  | act a => exact (a.failsOnly_perform m).mono h
  | ask q next ih =>
    rw [Routine.run]
    rcases hperform : q.perform m with ⟨result, n⟩
    cases result with
    | error cause => exact h.1 cause (Query.mayFail_perform (congrArg Prod.fst hperform))
    | ok a => exact ih a (h.2 a) n

private theorem failsOnly_drawBelow (v : Value) :
    (Routine.drawBelow v).FailsOnly Primitive.random.MayFail := by
  cases v with
  | integer bound =>
    rw [Routine.drawBelow]
    split
    · exact ⟨fun _ => False.elim, fun n _ => .operands⟩
    · rintro _ rfl
      exact .bound bound
  | float bound => exact ⟨fun _ => False.elim, fun x _ => .operands⟩
  | _ =>
    rintro _ rfl
    exact .operands rfl

private theorem failsOnly_writeValue (v : Value) :
    (Routine.writeValue v).FailsOnly Primitive.write.MayFail := by
  rw [Routine.writeValue]
  split <;> rintro _ rfl
  · exact .operands rfl
  · exact .outputFull

private theorem failsOnly_waitFor (v : Value) :
    (Routine.waitFor v).FailsOnly Primitive.wait.MayFail := by
  refine ⟨fun _ => False.elim, fun now => ?_⟩
  dsimp only
  split
  · rintro _ rfl
    exact .operands rfl
  · exact fun _ => False.elim

private theorem failsOnly_exchange (text : String) :
    (Routine.exchange text).FailsOnly Primitive.retrieve.MayFail := by
  refine ⟨?_, fun _ => ⟨?_, fun code _ => False.elim⟩⟩
  · rintro _ (rfl | rfl)
    · exact .notConnected
    · exact .zeroByte
  · rintro _ (rfl | rfl | ⟨defect, rfl⟩)
    · exact .notConnected
    · exact .messageCut
    · exact .malformedMessage defect

theorem Primitive.failsOnly_routine (p : Primitive) : p.routine.FailsOnly p.MayFail := by
  cases p with
  | operate op => exact fun _ => .operands
  | run => exact ⟨fun _ => .operands, fun code _ => False.elim⟩
  | choose =>
    refine ⟨fun _ => .operands, fun otherwise => ⟨fun _ => .operands, fun code => ?_⟩⟩
    exact ⟨fun _ => .operands, fun condition _ => False.elim⟩
  | cycle => exact ⟨fun _ => .operands, fun code _ => .operands⟩
  | define =>
    refine ⟨fun _ => .operands, fun body => ⟨fun _ => .operands, fun name => ?_⟩⟩
    rintro _ rfl
    exact .definedName name
  | random => exact ⟨fun _ => .operands, failsOnly_drawBelow⟩
  | write => exact ⟨fun _ => .operands, failsOnly_writeValue⟩
  | read =>
    rintro _ (h | rfl | rfl)
    · exact .operands h
    · exact .inputClosed
    · exact .malformedLine
  | now => exact ⟨fun _ => False.elim, fun now _ => .operands⟩
  | wait => exact ⟨fun _ => .operands, failsOnly_waitFor⟩
  | retrieve => exact ⟨fun _ => .operands, failsOnly_exchange⟩

namespace Machine

theorem mayFail_perform (m : Machine) (p : Primitive) : (p.perform m).FailsOnly p.MayFail := by
  rw [← p.run_routine]
  exact p.failsOnly_routine.run m

theorem own_performAction (m : Machine) (action : Action) :
    (action.perform m).FailsOnly (·.isOwn) := by
  cases action with
  | primitive p => exact (m.mayFail_perform p).mono fun _ h => h.isOwn
  | script body => trivial

theorem failsOnly_endPass (m : Machine) (code : String) (count : Int64) :
    (m.endPass code count).FailsOnly (·.isOperand) := by
  have hagain : (Routine.again code count).FailsOnly (·.isOperand) := by
    refine ⟨fun _ h => h, fun again => ?_⟩
    cases again with
    | false => exact fun _ => False.elim
    | true => exact fun _ h => h
  rw [← run_again]
  exact hagain.run m

end Machine

theorem Effect.Turns.own {effect last : Effect} (h : effect.Turns last)
    (heffect : effect.FailsOnly (·.isOwn)) : last.FailsOnly (·.isOwn) := by
  induction h with
  | refl effect => exact heffect
  | @again code count m n last hpass _ ih =>
    exact ih ((n.failsOnly_endPass code count).mono fun _ => Cause.isOwn_of_isOperand)

end StackScript
