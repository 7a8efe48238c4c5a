import Mathlib
import StackScript.Proofs.SpacedWords
import StackScript.Proofs.StandardMeaning
import StackScript.Proofs.TextOrder
/-!
# Comparisons

Three words compare two integers, two floats or two texts, and three more words turn their answers
around.  Of two values of one kind exactly one comparison holds, so that the opposite of one is the
other two together.  A float that is no number is an exception: none of the three holds of it, and
the opposite of each does (`Progress.comparisons_agree`).
-/

namespace StackScript

section Floats

open Float.Model (UnpackedFloat)

theorem compare_swap (x y : UnpackedFloat) : y.compare x = (x.compare y).map Ordering.swap := by
  cases x with
  | notANumber => cases y <;> rfl
  | infinity s =>
    cases y with
    | notANumber => rfl
    | infinity t => cases s <;> cases t <;> rfl
    | zero t => cases s <;> rfl
    | finite t k f hk => cases s <;> rfl
  | zero s =>
    cases y with
    | notANumber => rfl
    | infinity t => cases t <;> rfl
    | zero t => rfl
    | finite t k f hk => cases t <;> rfl
  | finite s k e hk =>
    cases y with
    | notANumber => rfl
    | infinity t => cases t <;> rfl
    | zero t => cases s <;> rfl
    | finite t l f hl =>
      have horder : (compare f e).then (compare l k) = ((compare e f).then (compare k l)).swap := by
        rw [Ordering.swap_then, ← Std.OrientedOrd.eq_swap, ← Std.OrientedOrd.eq_swap]
      cases s <;> cases t <;> simp [UnpackedFloat.compare, horder]

theorem compare_eq_none_iff (x y : UnpackedFloat) :
    x.compare y = none ↔ x.isNaN ∨ y.isNaN := by
  fun_cases UnpackedFloat.compare x y <;> simp [UnpackedFloat.isNaN]

theorem float_lt_iff {a b : Float} :
    a < b ↔ a.toModel.unpack.compare b.toModel.unpack = some .lt := by
  show decide (UnpackedFloat.lt _ _ = true) = true ↔ _
  rw [decide_eq_true_iff, UnpackedFloat.lt, beq_iff_eq]

theorem float_beq_iff {a b : Float} :
    (a == b) = true ↔ a.toModel.unpack.compare b.toModel.unpack = some .eq := by
  show UnpackedFloat.beq _ _ = true ↔ _
  rw [UnpackedFloat.beq, beq_iff_eq]

/-- Two numbers compare in exactly one way, and nothing compares with what is no number. -/
theorem count_float (a b : Float) :
    (decide (a < b)).toNat + (a == b).toNat + (decide (b < a)).toNat =
      if a.isNaN || b.isNaN then 0 else 1 := by
  have hnone : a.toModel.unpack.compare b.toModel.unpack = none ↔ a.isNaN ∨ b.isNaN :=
    compare_eq_none_iff _ _
  have hequal : (a == b) = decide (a.toModel.unpack.compare b.toModel.unpack = some .eq) := by
    rw [Bool.eq_iff_iff, float_beq_iff, decide_eq_true_iff]
  rw [← Bool.or_eq_true] at hnone
  simp only [hequal, float_lt_iff, compare_swap a.toModel.unpack b.toModel.unpack, ← hnone]
  rcases a.toModel.unpack.compare b.toModel.unpack with _ | order
  · rfl
  · cases order <;> rfl

end Floats

theorem count_of_linearOrder {α : Type} [LinearOrder α] (a b : α) :
    (decide (a < b)).toNat + (decide (a = b)).toNat + (decide (b < a)).toNat = 1 := by
  rcases lt_trichotomy a b with hlt | rfl | hgt
  · simp [hlt, hlt.ne, hlt.not_gt]
  · simp
  · simp [hgt, hgt.ne', hgt.not_gt]

namespace Value

/-- Two integers, two floats or two texts. -/
inductive Comparable : Value → Value → Prop
  | integers (a b : Int64) : Comparable (.integer a) (.integer b)
  | floats (a b : Float) : Comparable (.float a) (.float b)
  | texts (a b : String) : Comparable (.text a) (.text b)

def isNaN : Value → Bool
  | .float x => x.isNaN
  | _ => false

/-- What the three comparisons answer for a pair of values. -/
structure Compares (a b : Value) (smaller equal greater : Bool) : Prop where
  isSmaller : Pairing.isSmaller.combine? a b = some (.ok (.boolean smaller))
  isEqual : Pairing.isEqual.combine? a b = some (.ok (.boolean equal))
  isGreater : Pairing.isGreater.combine? a b = some (.ok (.boolean greater))
  swapped : Pairing.isSmaller.combine? b a = some (.ok (.boolean greater))
  count : smaller.toNat + equal.toNat + greater.toNat = if a.isNaN || b.isNaN then 0 else 1
  integers : ∀ x y, a = .integer x → b = .integer y → (smaller ↔ x.toInt < y.toInt)
  texts : ∀ x y, a = .text x → b = .text y → (smaller ↔ Utf8.encode x < Utf8.encode y)

theorem Comparable.exists_compares {a b : Value} (h : Comparable a b) :
    ∃ smaller equal greater, Compares a b smaller equal greater := by
  cases h with
  | integers a b =>
    refine ⟨a < b, a == b, b < a, rfl, rfl, rfl, rfl, ?_, ?_, by simp⟩
    · have hequal : (a == b) = decide (a.toInt = b.toInt) := by
        rw [Bool.eq_iff_iff, beq_iff_eq, decide_eq_true_iff, Int64.toInt_inj]
      simp only [hequal, Int64.lt_iff_toInt_lt, isNaN]
      exact count_of_linearOrder a.toInt b.toInt
    · intro x y hx hy
      cases hx
      cases hy
      rw [decide_eq_true_iff, Int64.lt_iff_toInt_lt]
  | floats a b =>
    exact ⟨a < b, a == b, b < a, rfl, rfl, rfl, rfl, count_float a b, by simp, by simp⟩
  | texts a b =>
    refine ⟨a < b, a == b, b < a, rfl, rfl, rfl, rfl, ?_, by simp, ?_⟩
    · exact count_of_linearOrder a b
    · intro x y hx hy
      cases hx
      cases hy
      rw [decide_eq_true_iff, Utf8.encode_lt_iff]

section Opposite

variable {a b : Value} {smaller equal greater : Bool}

private theorem not_eq_or_of_count {nan x y z : Bool}
    (h : x.toNat + y.toNat + z.toNat = if nan then 0 else 1) : (!x) = (nan || y || z) := by
  revert h
  cases nan <;> cases x <;> cases y <;> cases z <;> simp

theorem Compares.not_smaller (h : Compares a b smaller equal greater) :
    (!smaller) = (a.isNaN || b.isNaN || equal || greater) :=
  not_eq_or_of_count h.count

theorem Compares.not_greater (h : Compares a b smaller equal greater) :
    (!greater) = (a.isNaN || b.isNaN || equal || smaller) := by
  have hcount := h.count
  exact not_eq_or_of_count (by omega)

end Opposite

end Value

namespace Machine

variable {m : Machine} {a b : Value} {rest : List Value}

theorem leaves_inverted (name derived : String) {p : Pairing} {answer : Bool}
    (hm : m.depth + 2 ≤ m.maxNesting)
    (hname : m.dictionary.action? name = some (.primitive (.operate (.pair p))))
    (hinvert : m.dictionary.action? "invert" = some (.primitive (.operate (.convert .invert))))
    (hderived : m.dictionary.action? derived = some (.script (spaced [name, "invert"])))
    (hcallable : Callable derived ∧ ∀ word ∈ [name, "invert"], Callable word)
    (hvalues : m.stack.values = b :: a :: rest)
    (hresult : p.combine? a b = some (.ok (.boolean answer))) :
    m.Leaves derived (.boolean (!answer) :: rest) := by
  have hstack : m.opened.opened.stack = ⟨b :: a :: rest, m.stack.room⟩ := by
    rw [← hvalues]
    rfl
  have hbody : m.opened.Leaves (spaced [name, "invert"]) (.boolean (!answer) :: rest) :=
    leaves_calls (m := m.opened) hm hcallable.2
      (.pair hname hstack hresult (.operate hinvert rfl rfl .nil))
  have hlevel : m.depth < m.maxNesting := by omega
  exact leaves_of_reads hlevel hcallable.1.reads
    (.cons (fun _ _ => .enter hderived rfl hbody) .nil)

end Machine

namespace Progress

/-- In a full machine, whatever it has run, two integers, floats or texts compare in exactly one
way, and turned around in the opposite one, unless one of them is no number: then they compare in
none.  Integers have their own order and texts that of their bytes.  Each of the other three words
leaves the opposite of one answer.  That is the same as one of the other two, unless a value is no
number: then it is always true. -/
theorem comparisons_agree {s : Machine.Settings} {fuel : Nat} {m : Machine} {p : Progress}
    (hfull : Machine.full fuel s = (.done, m)) (hp : Later (.halted .done m) p)
    (hlevels : p.machine.depth + 2 ≤ p.machine.maxNesting) {a b : Value} {rest : List Value}
    (hab : Value.Comparable a b) (hvalues : p.machine.stack.values = b :: a :: rest) :
    ∃ smaller equal greater : Bool,
      p.machine.Leaves "is-smaller" (.boolean smaller :: rest) ∧
      p.machine.Leaves "is-equal" (.boolean equal :: rest) ∧
      p.machine.Leaves "is-greater" (.boolean greater :: rest) ∧
      smaller.toNat + equal.toNat + greater.toNat = (if a.isNaN || b.isNaN then 0 else 1) ∧
      (p.machine.withStack ⟨a :: b :: rest, p.machine.stack.room⟩).Leaves "is-smaller"
        (.boolean greater :: rest) ∧
      (∀ x y, a = .integer x → b = .integer y → (smaller ↔ x.toInt < y.toInt)) ∧
      (∀ x y, a = .text x → b = .text y → (smaller ↔ Utf8.encode x < Utf8.encode y)) ∧
      p.machine.Leaves "is-not-equal" (.boolean (!equal) :: rest) ∧
      p.machine.Leaves "is-greater-or-equal"
        (.boolean (a.isNaN || b.isNaN || equal || greater) :: rest) ∧
      p.machine.Leaves "is-smaller-or-equal"
        (.boolean (a.isNaN || b.isNaN || equal || smaller) :: rest) := by
  have hcapacity : 2 ≤ p.machine.stack.capacity := by
    simp [Stack.capacity, hvalues]
    omega
  have hname {name : String} {action : Action} (h : Library.standard.action? name = some action) :
      p.machine.dictionary.action? name = some action :=
    hp.action?_of_standard hfull hcapacity h
  generalize p.machine = n at *
  have hlevel : n.depth < n.maxNesting := by omega
  obtain ⟨smaller, equal, greater, h⟩ := hab.exists_compares
  refine ⟨smaller, equal, greater, ?_, ?_, ?_, h.count, ?_, h.integers, h.texts, ?_, ?_, ?_⟩
  · exact Machine.leaves_pair hlevel (by decide) (hname rfl) hvalues h.isSmaller
  · exact Machine.leaves_pair hlevel (by decide) (hname rfl) hvalues h.isEqual
  · exact Machine.leaves_pair hlevel (by decide) (hname rfl) hvalues h.isGreater
  · exact Machine.leaves_pair hlevel (by decide) (hname rfl) rfl h.swapped
  · exact Machine.leaves_inverted "is-equal" "is-not-equal" hlevels (hname rfl)
      (hname rfl) (hname rfl) (by decide) hvalues h.isEqual
  · rw [← h.not_smaller]
    exact Machine.leaves_inverted "is-smaller" "is-greater-or-equal" hlevels (hname rfl)
      (hname rfl) (hname rfl) (by decide) hvalues h.isSmaller
  · rw [← h.not_greater]
    exact Machine.leaves_inverted "is-greater" "is-smaller-or-equal" hlevels (hname rfl)
      (hname rfl) (hname rfl) (by decide) hvalues h.isGreater

/-- What is no number is greater than nothing and equal to nothing, and yet greater or equal. -/
theorem nan_is_greater_or_equal :
    ∃ (fuel : Nat) (m : Machine), Machine.full fuel { capacity := 3 } = (.done, m) ∧
      let nan := Value.float (.ofBits 0x7FF8000000000000)
      let one := Value.float (.ofBits 0x3FF0000000000000)
      let n := m.withStack ⟨[one, nan], 1⟩
      Later (.halted .done m) (.halted .done n) ∧
      n.Leaves "is-greater" [.boolean false] ∧ n.Leaves "is-equal" [.boolean false] ∧
      n.Leaves "is-greater-or-equal" [.boolean true] := by
  obtain ⟨fuel, hfull⟩ := Machine.exists_full_eq (s := { capacity := 3 }) (by decide) (by decide)
  refine ⟨fuel, _, hfull, ?_⟩
  intro nan one n
  have hlater : Later (.halted .done { Machine.bare { capacity := 3 } with
      dictionary := Library.standard }) (.halted .done n) :=
    later_of_request (r := .push nan) rfl
      (later_of_request (r := .push one) rfl Relation.ReflTransGen.refl)
  have hnan : nan.isNaN = true := rfl
  obtain ⟨smaller, equal, greater, -, hequal, hgreater, hcount, -, -, -, -, hnot, -⟩ :=
    comparisons_agree hfull hlater (by decide) (.floats _ _) rfl
  rw [hnan] at hcount hnot
  have hnone : smaller.toNat + equal.toNat + greater.toNat = 0 := hcount
  simp only [Nat.add_eq_zero_iff, Bool.toNat_eq_zero] at hnone
  obtain ⟨⟨-, rfl⟩, rfl⟩ := hnone
  exact ⟨hlater, hgreater, hequal, hnot⟩

end Progress

end StackScript
