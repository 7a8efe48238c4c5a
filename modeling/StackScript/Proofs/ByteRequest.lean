import StackScript.Proofs.TokenRequest
/-!
# Asking for one byte after the other

A cursor is asked for bytes in two ways: to look at the next one, and to take it.  However these
requests follow each other, the bytes taken are a first part of the source and the cursor stands
right behind them, and the failure behind the source is met at most once
(`Source.bytes_in_order`).
-/

namespace StackScript

/-- A request for the next byte of a source. -/
inductive ByteRequest where
  | look
  | take
deriving Repr, DecidableEq

/-- What a request for a byte comes to: a byte, the end of the source, or its failure. -/
structure ByteAnswer where
  request : ByteRequest
  result : Except Failure (Option UInt8)

namespace ByteAnswer

/-- The byte that an answer has taken off the source. -/
def taken? : ByteAnswer → Option UInt8
  | ⟨.take, .ok b⟩ => b
  | _ => none

def failure? : ByteAnswer → Option Failure
  | ⟨_, .error f⟩ => some f
  | _ => none

end ByteAnswer

namespace Cursor

def ask (c : Cursor) : ByteRequest → Except Failure (Option UInt8) × Cursor
  | .look => c.peek
  | .take => c.next

/-- The answers to some requests, one after the other, whatever they come to. -/
def answers (c : Cursor) : List ByteRequest → List ByteAnswer
  | [] => []
  | request :: requests => ⟨request, (c.ask request).1⟩ :: (c.ask request).2.answers requests

/-- The cursor after some requests, whatever they come to. -/
def asked (c : Cursor) (requests : List ByteRequest) : Cursor :=
  requests.foldl (fun c request => (c.ask request).2) c

theorem ask_fst (c : Cursor) (request : ByteRequest) :
    (c.ask request).1 =
      match c.pending, c.source.failure with
      | b :: _, _ => .ok (some b)
      | [], some f => .error f
      | [], none => .ok none := by
  obtain ⟨⟨bytes, failure⟩, ahead, location⟩ := c
  cases ahead with
  | some b => cases request <;> rfl
  | none =>
    cases bytes with
    | cons b bytes => cases request <;> rfl
    | nil => cases failure <;> cases request <;> rfl

private theorem failure_ask (c : Cursor) (request : ByteRequest) :
    (ByteAnswer.failure? ⟨request, (c.ask request).1⟩).toList ++
        (c.ask request).2.source.failure.toList = c.source.failure.toList := by
  obtain ⟨⟨bytes, failure⟩, ahead, location⟩ := c
  cases ahead with
  | some b => cases request <;> rfl
  | none =>
    cases bytes with
    | cons b bytes => cases request <;> rfl
    | nil => cases failure <;> cases request <;> rfl

theorem next_peek {c : Cursor} {found : Option UInt8} (h : c.peek.1 = .ok found) :
    c.peek.2.next.1 = .ok found := by
  obtain ⟨⟨bytes, failure⟩, ahead, location⟩ := c
  cases ahead with
  | some b => exact h
  | none =>
    cases bytes with
    | cons b bytes => exact h
    | nil =>
      cases failure with
      | some f => cases h
      | none => exact h

theorem failures_asked (c : Cursor) (requests : List ByteRequest) :
    (c.answers requests).filterMap ByteAnswer.failure? ++
        (c.asked requests).source.failure.toList = c.source.failure.toList := by
  induction requests generalizing c with
  | nil => rfl
  | cons request requests ih =>
    have hlater := ih (c.ask request).2
    rw [← failure_ask c request, ← hlater, ← List.append_assoc]
    congr 1
    rw [answers, List.filterMap_cons]
    cases ByteAnswer.failure? ⟨request, (c.ask request).1⟩ <;> rfl

theorem moves_asked (c : Cursor) (requests : List ByteRequest) :
    c.Moves ((c.answers requests).filterMap ByteAnswer.taken?) (c.asked requests) := by
  induction requests generalizing c with
  | nil => exact .stay
  | cons request requests ih =>
    have hlater := ih (c.ask request).2
    cases request with
    | look => exact .look hlater
    | take =>
      rw [answers, List.filterMap_cons]
      cases hresult : (c.ask .take).1 with
      | error f => exact .miss (fun b hb => by cases hresult.symm.trans hb) hlater
      | ok found =>
        cases found with
        | none => exact .miss (fun b hb => by cases hresult.symm.trans hb) hlater
        | some b => exact .take hresult hlater

end Cursor

namespace Source

/-- Let any requests for bytes have been made of a source, whatever came of them.  Then the bytes
taken are a first part of the source, in order, and the cursor stands right behind them.  The next
request of either kind finds the byte after them.  If there is none it finds the failure behind the
source, if there is one that was not met before, and the end of the source otherwise.  To look at a
byte does not move the cursor, and what is seen is what is taken next. -/
theorem bytes_in_order (s : Source) (requests : List ByteRequest) :
    let answers := (Cursor.ofSource s).answers requests
    let taken := answers.filterMap ByteAnswer.taken?
    let met := answers.filterMap ByteAnswer.failure?
    let c := (Cursor.ofSource s).asked requests
    taken <+: s.bytes ∧ met <+: s.failure.toList ∧ c.location = .behind taken ∧
      (∀ request, (c.ask request).1 =
        match s.bytes.drop taken.length, s.failure.toList.drop met.length with
        | b :: _, _ => .ok (some b)
        | [], f :: _ => .error f
        | [], [] => .ok none) ∧
      c.peek.2.location = c.location ∧
      ∀ found, c.peek.1 = .ok found → c.peek.2.next.1 = .ok found := by
  intro answers taken met c
  obtain ⟨hpending, hlocation⟩ := ((Cursor.ofSource s).moves_asked requests).pending_eq
  have hbytes : s.bytes = taken ++ c.pending := hpending
  have hfailure : met ++ c.source.failure.toList = s.failure.toList :=
    (Cursor.ofSource s).failures_asked requests
  refine ⟨⟨c.pending, hbytes.symm⟩, ⟨_, hfailure⟩, ?_, fun request => ?_, c.pending_peek.2, ?_⟩
  · rw [Location.behind_eq_afterAll]
    exact hlocation
  · rw [c.ask_fst, ← hfailure, hbytes, List.drop_left, List.drop_left]
    cases c.pending with
    | cons b rest => rfl
    | nil => cases c.source.failure <;> rfl
  · intro found hfound
    exact Cursor.next_peek hfound

end Source

end StackScript
