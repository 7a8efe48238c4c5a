import StackScript.Proofs.IntegerText
/-!
# Integer arithmetic

Integers are added, subtracted and multiplied modulo the number of their bit patterns, and divided
with the quotient truncated toward zero.  Only the quotient of the smallest integer and minus one is
not exact.  In all cases the quotient and the remainder give the dividend again, and what was added
can be subtracted again (`Machine.integer_arithmetic`).
-/

namespace StackScript

section Exact

variable (a b : Int64)

theorem toInt_quotient :
    (a / b).toInt = if a = Int64.minValue ∧ b = -1 then -2 ^ 63 else a.toInt.tdiv b.toInt := by
  split
  · rename_i h
    obtain ⟨rfl, rfl⟩ := h
    decide
  · rename_i h
    by_cases ha : a = Int64.minValue
    · exact Int64.toInt_div_of_ne_right a b fun hb => h ⟨ha, hb⟩
    · exact Int64.toInt_div_of_ne_left a b ha

theorem natAbs_remainder_lt (hb : b ≠ 0) : (a % b).toInt.natAbs < b.toInt.natAbs := by
  have hpos : 0 < b.toInt.natAbs := by
    rw [Int.natAbs_pos, ← Int64.toInt_zero, ne_eq, Int64.toInt_inj]
    exact hb
  rw [Int64.toInt_mod, Int.natAbs_tmod]
  exact Nat.mod_lt _ hpos

theorem sign_remainder : a % b = 0 ∨ (a % b).toInt.sign = a.toInt.sign := by
  rw [← Int64.toInt_inj, Int64.toInt_zero, ← Int.sign_eq_zero_iff_zero, Int64.toInt_mod,
    Int.sign_tmod]
  split
  · exact .inl rfl
  · exact .inr rfl

theorem quotient_mul_add_remainder : a / b * b + a % b = a := by
  rw [← Int64.toInt_inj, Int64.toInt_add, Int64.toInt_mul, Int64.toInt_div, Int64.toInt_mod,
    Int.bmod_mul_bmod, Int.bmod_add_bmod, Int.tdiv_mul_add_tmod, Int64.toInt_bmod]

end Exact

namespace Machine

open Integer (Denotes)

variable {m : Machine} {a b : Int64} {x y : String} {values : List Value}

theorem leaves_add_subtract (hm : m.depth < m.maxNesting)
    (hadd : m.dictionary.action? "add" = some (.primitive (.operate (.pair .add))))
    (hsubtract : m.dictionary.action? "subtract" = some (.primitive (.operate (.pair .subtract))))
    (hx : Denotes x a.toInt) (hy : Denotes y b.toInt) (hx' : m.dictionary.action? x = none)
    (hy' : m.dictionary.action? y = none) (hroom : 2 ≤ m.stack.room) :
    m.Leaves (spaced [x, y, "add", y, "subtract"]) (.integer a :: m.stack.values) := by
  obtain ⟨room, hroom⟩ := Nat.exists_eq_add_of_le' hroom
  have hstack : m.opened.stack = ⟨m.stack.values, room + 2⟩ := by
    rw [← hroom]
    rfl
  have hcallable : ∀ name ∈ [x, y, "add", y, "subtract"], Callable name := by
    have hwords : Callable "add" ∧ Callable "subtract" := by decide
    simp [hx.callable, hy.callable, hwords]
  have hcancel : Pairing.combine? .subtract (.integer (a + b)) (.integer b) =
      some (.ok (.integer a)) := by
    simp [Pairing.combine?, Pairing.onIntegers]
  have hparse := Integer.parse_eq_ok_iff.mpr hy
  apply leaves_calls hm hcallable
  refine .number hx' (Integer.parse_eq_ok_iff.mpr hx) hstack ?_
  refine .number hy' hparse rfl ?_
  refine .pair hadd rfl rfl ?_
  refine .number hy' hparse rfl ?_
  refine .pair hsubtract rfl hcancel ?_
  exact .nil

theorem leaves_divide_multiply_modulo (hm : m.depth < m.maxNesting)
    (hadd : m.dictionary.action? "add" = some (.primitive (.operate (.pair .add))))
    (hmultiply : m.dictionary.action? "multiply" = some (.primitive (.operate (.pair .multiply))))
    (hdivide : m.dictionary.action? "divide" = some (.primitive (.operate (.pair .divide))))
    (hmodulo : m.dictionary.action? "modulo" = some (.primitive (.operate (.pair .modulo))))
    (hx : Denotes x a.toInt) (hy : Denotes y b.toInt) (hx' : m.dictionary.action? x = none)
    (hy' : m.dictionary.action? y = none) (hb : b ≠ 0) (hroom : 3 ≤ m.stack.room) :
    m.Leaves (spaced [x, y, "divide", y, "multiply", x, y, "modulo", "add"])
      (.integer a :: m.stack.values) := by
  obtain ⟨room, hroom⟩ := Nat.exists_eq_add_of_le' hroom
  have hstack : m.opened.stack = ⟨m.stack.values, room + 3⟩ := by
    rw [← hroom]
    rfl
  have hcallable :
      ∀ name ∈ [x, y, "divide", y, "multiply", x, y, "modulo", "add"], Callable name := by
    have hwords : Callable "add" ∧ Callable "multiply" ∧ Callable "divide" ∧ Callable "modulo" := by
      decide
    simp [hx.callable, hy.callable, hwords]
  have hquotient : Pairing.combine? .divide (.integer a) (.integer b) =
      some (.ok (.integer (a / b))) := by
    simp [Pairing.combine?, Pairing.onIntegers, hb]
  have hremainder : Pairing.combine? .modulo (.integer a) (.integer b) =
      some (.ok (.integer (a % b))) := by
    simp [Pairing.combine?, Pairing.onIntegers, hb]
  have hdividend : Pairing.combine? .add (.integer (a / b * b)) (.integer (a % b)) =
      some (.ok (.integer a)) := by
    simp [Pairing.combine?, Pairing.onIntegers, quotient_mul_add_remainder]
  have hparse := Integer.parse_eq_ok_iff.mpr hx
  have hparse' := Integer.parse_eq_ok_iff.mpr hy
  apply leaves_calls hm hcallable
  refine .number hx' hparse hstack ?_
  refine .number hy' hparse' rfl ?_
  refine .pair hdivide rfl hquotient ?_
  refine .number hy' hparse' rfl ?_
  refine .pair hmultiply rfl rfl ?_
  refine .number hx' hparse rfl ?_
  refine .number hy' hparse' rfl ?_
  refine .pair hmodulo rfl hremainder ?_
  refine .pair hadd rfl hdividend ?_
  exact .nil

/-- Sums, differences and products are the exact ones, reduced to 64 bits with a sign.  A quotient
is the exact one truncated toward zero, but for the one that is too large; a remainder is smaller
than the divisor and has the sign of the dividend.  Written out in a source, with numbers that no
word has the name of, a quotient times its divisor and the remainder give the dividend again, and a
summand can be subtracted from a sum again. -/
theorem integer_arithmetic {s : Settings} {v : Verdict} {m : Machine}
    (hm : (Progress.halted v m).Reachable s) (hv : v.returns) (a b : Int64) :
    (∀ rest, m.stack.values = .integer b :: .integer a :: rest →
      (∃ c, m.Leaves "add" (.integer c :: rest) ∧
        c.toInt = (a.toInt + b.toInt).bmod (2 ^ 64)) ∧
      (∃ c, m.Leaves "subtract" (.integer c :: rest) ∧
        c.toInt = (a.toInt - b.toInt).bmod (2 ^ 64)) ∧
      (∃ c, m.Leaves "multiply" (.integer c :: rest) ∧
        c.toInt = (a.toInt * b.toInt).bmod (2 ^ 64)) ∧
      (b ≠ 0 → ∃ q r, m.Leaves "divide" (.integer q :: rest) ∧
        m.Leaves "modulo" (.integer r :: rest) ∧
        q.toInt = (if a = Int64.minValue ∧ b = -1 then -2 ^ 63 else a.toInt.tdiv b.toInt) ∧
        r.toInt.natAbs < b.toInt.natAbs ∧ (r = 0 ∨ r.toInt.sign = a.toInt.sign) ∧
        q * b + r = a)) ∧
    ∀ x y, Denotes x a.toInt → Denotes y b.toInt →
      m.dictionary.find? x = none → m.dictionary.find? y = none →
      (2 ≤ m.stack.room →
        m.Leaves (spaced [x, y, "add", y, "subtract"]) (.integer a :: m.stack.values)) ∧
      (b ≠ 0 → 3 ≤ m.stack.room →
        m.Leaves (spaced [x, y, "divide", y, "multiply", x, y, "modulo", "add"])
          (.integer a :: m.stack.values)) := by
  have hlevel := hm.depth_lt hv
  have hadd := hm.action?_of_natives (show Library.natives.action? "add" = _ by rfl)
  have hsubtract := hm.action?_of_natives (show Library.natives.action? "subtract" = _ by rfl)
  have hmultiply := hm.action?_of_natives (show Library.natives.action? "multiply" = _ by rfl)
  have hdivide := hm.action?_of_natives (show Library.natives.action? "divide" = _ by rfl)
  have hmodulo := hm.action?_of_natives (show Library.natives.action? "modulo" = _ by rfl)
  constructor
  · intro rest hvalues
    refine ⟨⟨a + b, ?_, Int64.toInt_add a b⟩, ⟨a - b, ?_, Int64.toInt_sub a b⟩,
      ⟨a * b, ?_, Int64.toInt_mul a b⟩, ?_⟩
    · exact leaves_pair hlevel (by decide) hadd hvalues rfl
    · exact leaves_pair hlevel (by decide) hsubtract hvalues rfl
    · exact leaves_pair hlevel (by decide) hmultiply hvalues rfl
    · intro hb
      refine ⟨a / b, a % b, ?_, ?_, toInt_quotient a b, natAbs_remainder_lt a b hb,
        sign_remainder a b, quotient_mul_add_remainder a b⟩
      · exact leaves_pair hlevel (by decide) hdivide hvalues (congrArg some (if_neg hb))
      · exact leaves_pair hlevel (by decide) hmodulo hvalues (congrArg some (if_neg hb))
  · intro x y hx hy hx' hy'
    have hx' : m.dictionary.action? x = none := Option.map_eq_none_iff.mpr hx'
    have hy' : m.dictionary.action? y = none := Option.map_eq_none_iff.mpr hy'
    exact ⟨leaves_add_subtract hlevel hadd hsubtract hx hy hx' hy',
      leaves_divide_multiply_modulo hlevel hadd hmultiply hdivide hmodulo hx hy hx' hy'⟩

/-- The smallest integer, divided by minus one, is left as it is, and comes out of its quotient and
remainder again. -/
theorem smallest_integer_by_minus_one :
    let m := Machine.bare { capacity := 3 }
    m.Leaves "-9223372036854775808 -1 divide -1 multiply -9223372036854775808 -1 modulo add"
      [.integer Int64.minValue] ∧
    ∃ n, ((m.accept (.push (.integer Int64.minValue))).machine.accept
        (.push (.integer (-1)))) = .halted .done n ∧
      n.Leaves "divide" [.integer Int64.minValue] := by
  intro m
  have hm : (Progress.halted .done m).Reachable { capacity := 3 } :=
    ⟨m, .bare, Relation.ReflTransGen.refl⟩
  let n := m.withStack ⟨[.integer (-1), .integer Int64.minValue], 1⟩
  have hn : (Progress.halted .done n).Reachable { capacity := 3 } :=
    hm.later (Progress.later_of_request (r := .push (.integer Int64.minValue)) rfl
      (Progress.later_of_request (r := .push (.integer (-1))) rfl Relation.ReflTransGen.refl))
  obtain ⟨-, hsource⟩ := integer_arithmetic hm rfl Int64.minValue (-1)
  obtain ⟨hwords, -⟩ := integer_arithmetic hn rfl Int64.minValue (-1)
  constructor
  · have hx := Integer.denotes_render Int64.minValue
    have hy := Integer.denotes_render (-1)
    exact (hsource _ _ hx hy (by decide) (by decide)).2 (by decide) (by decide)
  · obtain ⟨-, -, -, hdivide⟩ := hwords [] rfl
    obtain ⟨q, r, hq, -, hvalue, -⟩ := hdivide (by decide)
    have hsmallest : q = Int64.minValue := Int64.toInt_inj.mp hvalue
    exact ⟨n, rfl, hsmallest ▸ hq⟩

end Machine

end StackScript
