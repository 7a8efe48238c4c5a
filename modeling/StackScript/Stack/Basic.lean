import StackScript.Error
/-!
# The data stack

A bounded stack of values.  Its top is the value pushed last.
-/

namespace StackScript

/-- A stack: its values, the top first, and the number of places that are still free. -/
structure Stack where
  values : List Value
  room : Nat

namespace Stack

/-- The number of values that a stack can hold. -/
def capacity (s : Stack) : Nat := s.values.length + s.room

def defaultCapacity : Nat := 4096

/-- An empty stack.  A capacity of zero selects the default. -/
def withCapacity (capacity : Nat) : Stack :=
  { values := [], room := if capacity = 0 then defaultCapacity else capacity }

def size (s : Stack) : Nat := s.values.length

def toList (s : Stack) : List Value := s.values.reverse

def push (s : Stack) (v : Value) : Except Cause Stack :=
  match s.room with
  | 0 => .error .overflow
  | room + 1 => .ok { values := v :: s.values, room }

def pop (s : Stack) : Except Cause (Value × Stack) :=
  match s.values with
  | [] => .error .underflow
  | v :: rest => .ok (v, { values := rest, room := s.room + 1 })

/-- The value a number of places below the top. -/
def peek (s : Stack) (index : Nat) : Except Cause Value :=
  match s.values[index]? with
  | some v => .ok v
  | none => .error .underflow

def answer (s : Stack) (v : Value) : Outcome Stack :=
  match s.push v with
  | .ok s => .done s
  | .error cause => .failed cause s

theorem capacity_push {s t : Stack} {v : Value} (h : s.push v = .ok t) :
    t.capacity = s.capacity := by
  unfold push at h
  split at h
  · cases h
  · cases h
    simp_all [capacity]
    omega

theorem capacity_pop {s t : Stack} {v : Value} (h : s.pop = .ok (v, t)) :
    t.capacity = s.capacity := by
  unfold pop at h
  split at h
  · cases h
  · cases h
    simp_all [capacity]
    omega

end Stack

end StackScript
