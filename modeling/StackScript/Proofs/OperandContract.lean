import StackScript.Proofs.Evolution
/-!
# What operations do with their operands

An operation that finds too few values fails and leaves the stack as it is.  Otherwise it touches
its operands and nothing below them.  It fails for one of three reasons (`Operation.Refuses`): it
never takes a value of the kind that its deepest operand has, the operand above that one is of
another kind, or an index points outside the stack.  Then its operands are gone.  It ends the whole
run in a division of integers by zero only (`Operation.Divides`), and it never needs a free place.
-/

namespace StackScript

namespace Operation

/-- The number of values that an operation takes off the stack. -/
def operands : Operation → Nat
  | .drop => 1
  | .pick => 1
  | .swap => 2
  | .rot => 3
  | .pair _ => 2
  | .convert _ => 1

def results : Operation → Nat
  | .drop => 0
  | .pick => 1
  | .swap => 2
  | .rot => 3
  | .pair _ => 1
  | .convert _ => 1

def supported : Operation → List Kind
  | .pick => [.integer]
  | .pair .isEqual => [.boolean, .integer, .float, .text]
  | .pair .isGreater => [.integer, .float, .text]
  | .pair .isSmaller => [.integer, .float, .text]
  | .pair .add => [.integer, .float, .text]
  | .pair _ => [.integer, .float]
  | .convert .toText => [.integer, .float, .text]
  | .convert .toInteger => [.integer, .float, .text]
  | .convert .invert => [.boolean]
  | _ => [.boolean, .integer, .float, .text, .quotation, .timestamp]

/-- The reasons of an operation to fail, with its operands, the top first, and the values below
them. -/
inductive Refuses : Operation → List Value → List Value → Cause → Prop
  | unsupported {op : Operation} {operands below : List Value} {a : Value}
      (ha : operands.getLast? = some a) (h : a.kind ∉ op.supported) :
      Refuses op operands below (.invalidType a.kind)
  | mismatch {p : Pairing} {a b : Value} {below : List Value}
      (ha : a.kind ∈ supported (.pair p)) (hb : b.kind ≠ a.kind) :
      Refuses (.pair p) [b, a] below (.typeMismatch a.kind b.kind)
  | outside {n : Int64} {below : List Value} (h : n.toInt < 0 ∨ below.length ≤ n.toInt) :
      Refuses .pick [.integer n] below .underflow

/-- The operation divides integers, and it divides by zero. -/
inductive Divides : Operation → List Value → Fault → Prop
  | quotient (a : Int64) : Divides (.pair .divide) [.integer 0, .integer a] .division
  | remainder (a : Int64) : Divides (.pair .modulo) [.integer 0, .integer a] .remainder

end Operation

namespace Pairing

theorem accepts_iff_mem_supported (p : Pairing) (k : Kind) :
    p.accepts k ↔ k ∈ Operation.supported (.pair p) := by
  cases p <;> cases k <;> decide

theorem combine?_of_kind_ne (p : Pairing) {a b : Value} (h : b.kind ≠ a.kind) :
    p.combine? a b = none := by
  cases a <;> cases b <;> first | rfl | exact absurd rfl h

theorem combine?_eq_none_iff (p : Pairing) (a b : Value) :
    p.combine? a b = none ↔ a.kind ∉ Operation.supported (.pair p) ∨ b.kind ≠ a.kind := by
  by_cases hkind : b.kind = a.kind
  · simp only [hkind, ne_eq, not_true_eq_false, or_false]
    cases a <;> cases b <;> cases hkind <;> cases p <;>
      simp [combine?, onTexts?, onBooleans?, Value.kind, Operation.supported]
  · simp [combine?_of_kind_ne p hkind, hkind]

theorem combine?_eq_error_iff (p : Pairing) (a b : Value) (fault : Fault) :
    p.combine? a b = some (.error fault) ↔ Operation.Divides (.pair p) [b, a] fault := by
  constructor
  · intro h
    cases a with
    | integer x =>
      cases b with
      | integer y =>
        cases p with
        | divide =>
          simp only [combine?, onIntegers, Option.some.injEq] at h
          split at h
          · rename_i hzero
            cases h
            subst hzero
            exact .quotient x
          · cases h
        | modulo =>
          simp only [combine?, onIntegers, Option.some.injEq] at h
          split at h
          · rename_i hzero
            cases h
            subst hzero
            exact .remainder x
          · cases h
        | _ => simp [combine?, onIntegers] at h
      | _ => simp [combine?] at h
    | _ => cases b <;> simp [combine?] at h
  · intro h
    cases h <;> simp [combine?, onIntegers]

theorem refuses_iff (p : Pairing) (a b : Value) (below : List Value) (cause : Cause) :
    (Operation.pair p).Refuses [b, a] below cause ↔
      p.combine? a b = none ∧ cause = p.refuse a b := by
  rw [combine?_eq_none_iff, refuse]
  by_cases ha : a.kind ∈ Operation.supported (.pair p)
  · have haccepts := (p.accepts_iff_mem_supported a.kind).mpr ha
    simp only [ha, not_true_eq_false, false_or, haccepts, if_true]
    constructor
    · intro h
      cases h with
      | unsupported hlast hnot =>
        cases hlast
        exact absurd ha hnot
      | mismatch _ hb => exact ⟨hb, rfl⟩
    · intro ⟨hb, hcause⟩
      rw [hcause]
      exact .mismatch ha hb
  · have haccepts := mt (p.accepts_iff_mem_supported a.kind).mp ha
    simp only [ha, not_false_eq_true, true_or, true_and, haccepts]
    constructor
    · intro h
      cases h with
      | unsupported hlast _ =>
        cases hlast
        rfl
      | mismatch ha' _ => exact absurd ha' ha
    · intro hcause
      rw [hcause]
      exact .unsupported rfl ha

end Pairing

namespace Conversion

theorem convert?_eq_none_iff (c : Conversion) (v : Value) :
    c.convert? v = none ↔ v.kind ∉ Operation.supported (.convert c) := by
  cases c <;> cases v <;> simp [convert?, Value.kind, Operation.supported]

theorem refuses_iff (c : Conversion) (a : Value) (below : List Value) (cause : Cause) :
    (Operation.convert c).Refuses [a] below cause ↔
      c.convert? a = none ∧ cause = .invalidType a.kind := by
  rw [convert?_eq_none_iff]
  constructor
  · intro h
    cases h with
    | unsupported hlast hkind =>
      cases hlast
      exact ⟨hkind, rfl⟩
  · intro ⟨hkind, hcause⟩
    rw [hcause]
    exact .unsupported rfl hkind

end Conversion

namespace Operation

theorem refuses_pick_iff (a : Value) (below : List Value) (cause : Cause) :
    pick.Refuses [a] below cause ↔
      a.kind ≠ .integer ∧ cause = .invalidType a.kind ∨
        ∃ n, a = .integer n ∧ (n.toInt < 0 ∨ below.length ≤ n.toInt) ∧ cause = .underflow := by
  constructor
  · intro h
    cases h with
    | unsupported hlast hkind =>
      cases hlast
      exact .inl ⟨by simpa [supported] using hkind, rfl⟩
    | @outside n _ hrange => exact .inr ⟨n, rfl, hrange, rfl⟩
  · intro h
    rcases h with ⟨hkind, rfl⟩ | ⟨n, rfl, hrange, rfl⟩
    · exact .unsupported rfl (by simpa [supported] using hkind)
    · exact .outside hrange

theorem not_refuses_of_arranges {op : Operation} {operands below : List Value}
    (h : op = .drop ∨ op = .swap ∨ op = .rot) (cause : Cause) :
    ¬ op.Refuses operands below cause := by
  have hall (k : Kind) : k ∈ op.supported := by
    rcases h with rfl | rfl | rfl <;> cases k <;> decide
  intro hrefuses
  cases hrefuses with
  | unsupported _ hkind => exact hkind (hall _)
  | mismatch _ _ => simp at h
  | outside _ => simp at h

theorem not_divides_of_arranges {op : Operation} {operands : List Value}
    (h : op = .drop ∨ op = .swap ∨ op = .rot) (fault : Fault) : ¬ op.Divides operands fault := by
  intro hdivides
  cases hdivides <;> simp at h

end Operation

namespace Stack

/-- What an operation does with its operands, the top first, when the values below them are the rest
of the stack. -/
structure Contract (s : Stack) (op : Operation) (operands below : List Value) : Prop where
  failed_iff : ∀ cause t, s.apply op = .failed cause t ↔
    op.Refuses operands below cause ∧ t = ⟨below, s.room + op.operands⟩
  aborted_iff : ∀ fault t, s.apply op = .aborted fault t ↔
    op.Divides operands fault ∧ t = ⟨below, s.room + op.operands⟩
  done : ∀ t, s.apply op = .done t → ∃ results, results.length = op.results ∧
    t.values = results ++ below ∧ t.capacity = s.capacity

variable {s : Stack} {op : Operation} {operands below : List Value}

private theorem contract_of_done {t : Stack} (results : List Value) (happly : s.apply op = .done t)
    (hlength : results.length = op.results) (hvalues : t.values = results ++ below)
    (hrefuses : ∀ cause, ¬ op.Refuses operands below cause)
    (hdivides : ∀ fault, ¬ op.Divides operands fault) : s.Contract op operands below where
  failed_iff cause t := by simp [happly, hrefuses]
  aborted_iff fault t := by simp [happly, hdivides]
  done u hu := by
    have hcapacity := s.capacity_apply op
    rw [happly] at hcapacity hu
    cases hu
    exact ⟨results, hlength, hvalues, hcapacity⟩

private theorem contract_of_failed (cause : Cause)
    (happly : s.apply op = .failed cause ⟨below, s.room + op.operands⟩)
    (hrefuses : ∀ c, op.Refuses operands below c ↔ c = cause)
    (hdivides : ∀ fault, ¬ op.Divides operands fault) : s.Contract op operands below where
  failed_iff c t := by
    rw [happly, hrefuses]
    constructor
    · intro h
      cases h
      exact ⟨rfl, rfl⟩
    · intro ⟨hc, ht⟩
      rw [hc, ht]
  aborted_iff fault t := by simp [happly, hdivides]
  done t ht := by simp [happly] at ht

private theorem contract_of_arranges {t : Stack} (h : op = .drop ∨ op = .swap ∨ op = .rot)
    (results : List Value) (happly : s.apply op = .done t) (hlength : results.length = op.results)
    (hvalues : t.values = results ++ below) : s.Contract op operands below :=
  contract_of_done results happly hlength hvalues (Operation.not_refuses_of_arranges h)
    (Operation.not_divides_of_arranges h)

private theorem contract_drop {a : Value} (h : s.values = a :: below) :
    s.Contract .drop [a] below := by
  have happly : s.apply .drop = .done ⟨below, s.room + 1⟩ := by simp [apply, drop, h]
  exact contract_of_arranges (.inl rfl) [] happly rfl rfl

private theorem contract_swap {a b : Value} (h : s.values = b :: a :: below) :
    s.Contract .swap [b, a] below := by
  have happly : s.apply .swap = .done { s with values := a :: b :: below } := by
    simp [apply, swap, h]
  exact contract_of_arranges (.inr (.inl rfl)) [a, b] happly rfl rfl

private theorem contract_rot {a b c : Value} (h : s.values = c :: b :: a :: below) :
    s.Contract .rot [c, b, a] below := by
  have happly : s.apply .rot = .done { s with values := a :: c :: b :: below } := by
    simp [apply, rot, h]
  exact contract_of_arranges (.inr (.inr rfl)) [a, c, b] happly rfl rfl

private theorem pick_of_kind {a : Value} (h : s.values = a :: below) (hkind : a.kind ≠ .integer) :
    s.pick = .failed (.invalidType a.kind) ⟨below, s.room + 1⟩ := by
  cases a with
  | integer n => exact absurd rfl hkind
  | _ => simp [pick, h]

private theorem pick_of_index {n : Int64} (h : s.values = .integer n :: below) :
    s.pick =
      if n.toInt < 0 ∨ below.length ≤ n.toInt then .failed .underflow ⟨below, s.room + 1⟩
      else .done ⟨below.getD n.toInt.toNat (.integer n) :: below, s.room⟩ := by
  have hzero : n < 0 ↔ n.toInt < 0 := Int64.lt_iff_toInt_lt
  simp only [pick, h, peek, hzero, List.getD_eq_getElem?_getD]
  by_cases hneg : n.toInt < 0
  · simp only [hneg, true_or, if_true]
  · by_cases hlong : below.length ≤ n.toInt
    · have hnone : below[n.toInt.toNat]? = none := List.getElem?_eq_none (by omega)
      simp only [hneg, hlong, hnone, or_true, if_true, if_false]
    · have hsome := List.getElem?_eq_getElem (show n.toInt.toNat < below.length by omega)
      simp only [hneg, hlong, hsome, or_false, if_false, answer, push, Option.getD_some]

private theorem contract_pick {a : Value} (h : s.values = a :: below) :
    s.Contract .pick [a] below := by
  have hdivides (fault : Fault) : ¬ Operation.pick.Divides [a] fault := by
    intro hdivides
    cases hdivides
  by_cases hkind : a.kind = .integer
  · cases a with
    | integer n =>
      have happly := pick_of_index h
      split at happly
      · rename_i hrange
        refine contract_of_failed .underflow happly ?_ hdivides
        simp [Operation.refuses_pick_iff, Value.kind, hrange]
      · rename_i hrange
        refine contract_of_done [_] happly rfl rfl ?_ hdivides
        simp [Operation.refuses_pick_iff, Value.kind, hrange]
    | _ => cases hkind
  · refine contract_of_failed (.invalidType a.kind) (pick_of_kind h hkind) ?_ hdivides
    intro cause
    have hvalue (n : Int64) : a ≠ .integer n := by
      intro ha
      exact hkind (congrArg Value.kind ha)
    simp [Operation.refuses_pick_iff, hkind, hvalue]

private theorem contract_convert (c : Conversion) {a : Value} (h : s.values = a :: below) :
    s.Contract (.convert c) [a] below := by
  have hdivides (fault : Fault) : ¬ (Operation.convert c).Divides [a] fault := by
    intro hdivides
    cases hdivides
  cases hresult : c.convert? a with
  | none =>
    refine contract_of_failed (.invalidType a.kind) ?_ ?_ hdivides
    · simp [apply, convert, h, hresult, Operation.operands]
    · simp [c.refuses_iff, hresult]
  | some v =>
    have happly : s.apply (.convert c) = .done ⟨v :: below, s.room⟩ := by
      simp [apply, convert, h, hresult, answer, push]
    refine contract_of_done [v] happly rfl rfl ?_ hdivides
    simp [c.refuses_iff, hresult]

private theorem contract_pair (p : Pairing) {a b : Value} (h : s.values = b :: a :: below) :
    s.Contract (.pair p) [b, a] below := by
  have hdivides (fault : Fault) :
      (Operation.pair p).Divides [b, a] fault ↔ p.combine? a b = some (.error fault) :=
    (p.combine?_eq_error_iff a b fault).symm
  have hrefuses (cause : Cause) := p.refuses_iff a b below cause
  cases hresult : p.combine? a b with
  | none =>
    refine contract_of_failed (p.refuse a b) ?_ ?_ ?_
    · simp [apply, pair, h, hresult, Operation.operands]
    · simp [hrefuses, hresult]
    · simp [hdivides, hresult]
  | some result =>
    cases result with
    | ok v =>
      have happly : s.apply (.pair p) = .done ⟨v :: below, s.room + 1⟩ := by
        simp [apply, pair, h, hresult, answer, push]
      refine contract_of_done [v] happly rfl rfl ?_ ?_
      · simp [hrefuses, hresult]
      · simp [hdivides, hresult]
    | error fault =>
      have happly : s.apply (.pair p) = .aborted fault ⟨below, s.room + 2⟩ := by
        simp [apply, pair, h, hresult]
      constructor
      · simp [happly, hrefuses, hresult]
      · simp [happly, hdivides, hresult, Operation.operands, eq_comm]
      · simp [happly]

/-- An operation that finds its operands keeps its contract. -/
theorem contract (s : Stack) (op : Operation) {operands below : List Value}
    (hvalues : s.values = operands ++ below) (hlength : operands.length = op.operands) :
    s.Contract op operands below := by
  match op, operands, hlength with
  | .drop, [_], _ => exact contract_drop hvalues
  | .pick, [_], _ => exact contract_pick hvalues
  | .swap, [_, _], _ => exact contract_swap hvalues
  | .rot, [_, _, _], _ => exact contract_rot hvalues
  | .pair p, [_, _], _ => exact contract_pair p hvalues
  | .convert c, [_], _ => exact contract_convert c hvalues

theorem apply_of_size_lt (s : Stack) (op : Operation) (h : s.size < op.operands) :
    s.apply op = .failed .underflow s := by
  obtain ⟨values, room⟩ := s
  match values with
  | [] => cases op <;> rfl
  | [a] => cases op <;> first | rfl | simp [size, Operation.operands] at h
  | [b, a] => cases op <;> first | rfl | simp [size, Operation.operands] at h
  | _ :: _ :: _ :: _ =>
    simp only [size, List.length_cons] at h
    cases op <;> simp only [Operation.operands] at h <;> omega

theorem popValue_of_values {v : Value} (h : s.values = v :: below) :
    s.popValue = (.ok v, ⟨below, s.room + 1⟩) := by
  simp [popValue, pop, h]

theorem exists_operands (h : op.operands ≤ s.size) :
    ∃ operands below, s.values = operands ++ below ∧ operands.length = op.operands :=
  ⟨s.values.take op.operands, s.values.drop op.operands, (List.take_append_drop _ _).symm,
    List.length_take_of_le h⟩

theorem exists_done_of_arranges (h : op = .drop ∨ op = .swap ∨ op = .rot)
    (hsize : op.operands ≤ s.size) : ∃ t, s.apply op = .done t := by
  obtain ⟨operands, below, hvalues, hlength⟩ := exists_operands hsize
  have hcontract := s.contract op hvalues hlength
  cases happly : s.apply op with
  | done t => exact ⟨t, rfl⟩
  | failed cause t =>
    have hrefuses := ((hcontract.failed_iff cause t).mp happly).1
    exact absurd hrefuses (Operation.not_refuses_of_arranges h cause)
  | aborted fault t =>
    have hdivides := ((hcontract.aborted_iff fault t).mp happly).1
    exact absurd hdivides (Operation.not_divides_of_arranges h fault)

theorem apply_ne_overflow (s : Stack) (op : Operation) (t : Stack) :
    s.apply op ≠ .failed .overflow t := by
  intro happly
  by_cases hsize : s.size < op.operands
  · simp [s.apply_of_size_lt op hsize] at happly
  · obtain ⟨operands, below, hvalues, hlength⟩ := exists_operands (Nat.le_of_not_lt hsize)
    have hrefuses := (((s.contract op hvalues hlength).failed_iff _ t).mp happly).1
    cases hrefuses

theorem push_eq_overflow_iff (s : Stack) (v : Value) :
    s.push v = .error .overflow ↔ s.size = s.capacity := by
  obtain ⟨values, room⟩ := s
  cases room <;> simp [push, size, capacity]

/-- An operation without all of its operands fails for want of them and leaves the stack as it is.
With its operands it keeps its contract: it has results, or it fails or divides by zero and its
operands are gone, and the values below them are as they were.  Arranging values cannot fail in
another way, and only to push a value takes a free place. -/
theorem operations_keep_contract (s : Stack) :
    (∀ op, s.size < op.operands → s.apply op = .failed .underflow s) ∧
    (∀ op operands below, s.values = operands ++ below → operands.length = op.operands →
      s.Contract op operands below) ∧
    (∀ op, op = .drop ∨ op = .swap ∨ op = .rot → op.operands ≤ s.size →
      ∃ t, s.apply op = .done t) ∧
    (∀ op t, s.apply op ≠ .failed .overflow t) ∧
    (s.values = [] → s.popValue = (.error .underflow, s)) ∧
    (∀ v below, s.values = v :: below → s.popValue = (.ok v, ⟨below, s.room + 1⟩)) ∧
    ∀ v, s.push v = .error .overflow ↔ s.size = s.capacity := by
  refine ⟨s.apply_of_size_lt, ?_, ?_, s.apply_ne_overflow, ?_, ?_, s.push_eq_overflow_iff⟩
  · intro op operands below hvalues hlength
    exact s.contract op hvalues hlength
  · intro op h hsize
    exact exists_done_of_arranges h hsize
  · intro h
    simp [popValue, pop, h]
  · intro v below h
    exact popValue_of_values h

/-- On a full stack a number and a text cannot be added, and both are gone.  An index is looked up
below itself, and the value that it finds takes its place. -/
theorem full_stack_keeps_contract :
    let s : Stack := ⟨[.text "a", .integer 2, .boolean true], 0⟩
    s.apply (.pair .add) = .failed (.typeMismatch .integer .text) ⟨[.boolean true], 2⟩ ∧
      ∀ t, Stack.apply ⟨[.integer 1, .integer 2, .boolean true], 0⟩ .pick ≠ .failed .overflow t := by
  intro s
  obtain ⟨-, hcontract, -⟩ := operations_keep_contract s
  obtain ⟨-, -, -, hplace, -⟩ :=
    operations_keep_contract ⟨[.integer 1, .integer 2, .boolean true], 0⟩
  have hadd := hcontract (.pair .add) [.text "a", .integer 2] [.boolean true] rfl rfl
  refine ⟨(hadd.failed_iff _ _).mpr ⟨?_, rfl⟩, hplace .pick⟩
  exact .mismatch (a := .integer 2) (b := .text "a") (by simp [Value.kind, Operation.supported])
    (by simp [Value.kind])

end Stack

end StackScript
