import StackScript.Proofs.StandardMeaning
/-!
# Random numbers between two bounds

`random-between` subtracts its lower bound from its upper bound, draws a number below the
difference, and adds the lower bound again.  The difference wraps around at 64 bits.  So the number
lies between the bounds if their distance is itself an integer of a script.  Bounds that are further
apart are refused, and bounds that are in the wrong order, and further apart than that, are not
(`Progress.random_between_by_distance`).
-/

namespace StackScript

namespace Generator

theorem scaled_lt {bound : Nat} (h : 0 < bound) (tries : Nat) (g : Generator) :
    (scaled bound tries g).1 < bound := by
  have hscaled (v : UInt64) : v.toNat * bound / 2 ^ 64 < bound := by
    apply Nat.div_lt_of_lt_mul
    exact (Nat.mul_lt_mul_right h).mpr v.toNat_lt
  induction tries generalizing g with
  | zero => exact hscaled g.next.1
  | succ tries ih =>
    show (ite _ _ _ : Nat × Generator).1 < bound
    split
    · exact hscaled g.next.1
    · exact ih g.next.2

theorem below_lt {bound : Nat} (h : 0 < bound) (g : Generator) : (g.below bound).1 < bound :=
  scaled_lt h 1000 g

end Generator

section Distance

variable (a b : Int64)

theorem sub_pos_iff : 0 < b - a ↔
    a.toInt < b.toInt ∧ b.toInt - a.toInt ≤ Int64.maxValue.toInt ∨
      b.toInt - a.toInt < Int64.minValue.toInt := by
  have hmax : Int64.maxValue.toInt = 9223372036854775807 := rfl
  have hmin : Int64.minValue.toInt = -9223372036854775808 := rfl
  have ha := a.le_toInt
  have ha' := a.toInt_lt
  have hb := b.le_toInt
  have hb' := b.toInt_lt
  rw [Int64.lt_iff_toInt_lt, Int64.toInt_zero, Int64.toInt_sub, hmax, hmin, Int.bmod]
  omega

theorem toInt_add_ofNat {n : Nat} (hn : n < (b - a).toInt.toNat) :
    (a.toInt < b.toInt →
      a.toInt ≤ (a + Int64.ofNat n).toInt ∧ (a + Int64.ofNat n).toInt < b.toInt) ∧
    (b.toInt ≤ a.toInt →
      a.toInt ≤ (a + Int64.ofNat n).toInt ∨ (a + Int64.ofNat n).toInt < b.toInt) := by
  have ha := a.le_toInt
  have ha' := a.toInt_lt
  have hb := b.le_toInt
  have hb' := b.toInt_lt
  have hlt := (b - a).toInt_lt
  have hoffset : (Int64.ofNat n).toInt = n := Int64.toInt_ofNat_of_lt (by omega)
  rw [Int64.toInt_sub] at hn
  rw [Int64.toInt_add, hoffset]
  simp only [Int.bmod] at hn ⊢
  omega

end Distance

namespace Machine

variable {m : Machine} {a b : Int64} {rest : List Value} {room : Nat}

theorem perform_random {bound : Int64} (hstack : m.stack = ⟨.integer bound :: rest, room⟩) :
    (Action.primitive .random).perform m =
      .settled ((m.withStack ⟨rest, room + 1⟩).drawBelow (.integer bound)) := by
  simp only [Action.perform, Primitive.perform, performRandom, taking, Stack.popValue, Stack.pop,
    hstack]

theorem drawBelow_of_pos {bound : Int64} (h : 0 < bound) {n : Nat} {generator : Generator}
    (hdraw : m.generator.below bound.toInt.toNat = (n, generator)) :
    m.drawBelow (.integer bound) = answer { m with generator } (.integer (Int64.ofNat n)) := by
  rw [drawBelow, if_pos h, hdraw]

private theorem obeys_distance (hd : m.dictionary.KeepsStandard) (hm : m.depth < m.maxNesting)
    (hstack : m.stack = ⟨.integer b :: .integer a :: rest, room + 1⟩) :
    m.Obeys [⟨⟨1, 1⟩, .call "over"⟩, ⟨⟨1, 6⟩, .call "subtract"⟩]
      (m.withStack ⟨.integer (b - a) :: .integer a :: rest, room + 1⟩) :=
  .word hd rfl (sourceEnds_over hd hm hstack) (.operate hd rfl rfl rfl .nil)

private theorem tokens_betweenBody :
    (Cursor.ofSource (.ofText "over subtract random add")).tokens =
      ([⟨⟨1, 1⟩, .call "over"⟩, ⟨⟨1, 6⟩, .call "subtract"⟩] ++
        ⟨⟨1, 15⟩, .call "random"⟩ :: [⟨⟨1, 22⟩, .call "add"⟩, ⟨⟨1, 25⟩, .endOfInput⟩], none) := rfl

variable {l : Location}

/-- A call of `random-between` leaves a number on these values. -/
def LeavesNumber (m : Machine) (l : Location) (rest : List Value) (r : Int64) : Prop :=
  ∃ generator, (m.obey [] ⟨l, .call "random-between"⟩).Ends .done
    ({ m with generator }.withStack ⟨.integer r :: rest, m.stack.room + 1⟩)

/-- A call of `random-between` fails in its draw, whose bound is this distance, and leaves these
values. -/
def RefusesDistance (m : Machine) (l : Location) (distance : Int64) (values : List Value) : Prop :=
  (m.obey [] ⟨l, .call "random-between"⟩).Ends
    (.failed ⟨[⟨l, some "random-between"⟩, ⟨⟨1, 15⟩, some "random"⟩], .randomBound distance⟩)
    (m.withStack ⟨values, m.stack.room + 1⟩)

private theorem exists_leavesNumber (hd : m.dictionary.KeepsStandard)
    (hm : m.depth + 2 ≤ m.maxNesting)
    (hstack : m.stack = ⟨.integer b :: .integer a :: rest, room + 1⟩) (hpos : 0 < b - a) :
    ∃ n, n < (b - a).toInt.toNat ∧ m.LeavesNumber l rest (a + Int64.ofNat n) := by
  have hone : m.depth < m.maxNesting := by omega
  have hbound : 0 < (b - a).toInt.toNat := by
    rw [Int64.lt_iff_toInt_lt, Int64.toInt_zero] at hpos
    omega
  have hlt := Generator.below_lt hbound m.generator
  generalize hdraw : m.generator.below (b - a).toInt.toNat = draw at hlt
  obtain ⟨n, generator⟩ := draw
  refine ⟨n, hlt, generator, ?_⟩
  let drawn : Machine := { m.opened with generator }
  have hrandom : (Action.primitive .random).perform
      (m.opened.withStack ⟨.integer (b - a) :: .integer a :: rest, room + 1⟩) =
      .settled (.done (drawn.withStack ⟨.integer (Int64.ofNat n) :: .integer a :: rest,
        room + 1⟩)) := by
    rw [perform_random rfl]
    exact congrArg Effect.settled (drawBelow_of_pos hpos hdraw)
  have hadd : (drawn.withStack ⟨.integer (Int64.ofNat n) :: .integer a :: rest, room + 1⟩).Obeys
      [⟨⟨1, 22⟩, .call "add"⟩] (drawn.withStack ⟨.integer (a + Int64.ofNat n) :: rest,
        room + 2⟩) :=
    .operate hd rfl rfl rfl .nil
  have hname : m.dictionary.action? "random" = some (.primitive .random) := hd.action?_eq rfl
  have hobeys := (obeys_distance (m := m.opened) hd hm hstack).append
    (.call (l := ⟨1, 15⟩) hname hrandom hadd)
  have hbody := sourceEnds_of_obeys hone tokens_betweenBody hobeys
  rw [hstack, obey, meaning_call (hd.action?_eq rfl)]
  exact ends_enter_iff.mpr ⟨_, hbody, rfl⟩

private theorem refusesDistance_of_not_pos (hd : m.dictionary.KeepsStandard)
    (hm : m.depth + 2 ≤ m.maxNesting)
    (hstack : m.stack = ⟨.integer b :: .integer a :: rest, room + 1⟩) (hpos : ¬ 0 < b - a) :
    m.RefusesDistance l (b - a) (.integer a :: rest) := by
  have hone : m.depth < m.maxNesting := by omega
  let k := m.opened.withStack ⟨.integer (b - a) :: .integer a :: rest, room + 1⟩
  have hrandom : (Action.primitive .random).perform k =
      .settled (.failed (.randomBound (b - a))
        (m.opened.withStack ⟨.integer a :: rest, room + 2⟩)) := by
    rw [perform_random rfl, drawBelow, if_neg hpos]
    rfl
  have hname : m.dictionary.action? "random" = some (.primitive .random) := hd.action?_eq rfl
  have hfails := ends_obey_failed (l := ⟨1, 15⟩) (m := k) hname hrandom
  have hbody := sourceEnds_of_failed hone tokens_betweenBody
    (obeys_distance (m := m.opened) hd hm hstack) hfails
  rw [RefusesDistance, hstack, obey, meaning_call (hd.action?_eq rfl)]
  exact ends_enter_iff.mpr ⟨_, hbody, rfl⟩

end Machine

namespace Progress

/-- In a full machine, whatever it has run, as long as `0` and `1` are numbers, `random-between`
leaves a number between two bounds in order whose distance is an integer of a script.  Bounds in
order that are further apart are refused.  Bounds that are not in order are refused, too, unless they
are further apart than that: then a number is left which does not lie between them. -/
theorem random_between_by_distance {s : Machine.Settings} {fuel : Nat} {m : Machine} {p : Progress}
    (hfull : Machine.full fuel s = (.done, m)) (hp : Later (.halted .done m) p)
    (hzero : p.machine.dictionary.find? "0" = none)
    (hone : p.machine.dictionary.find? "1" = none) (hroom : 1 ≤ p.machine.stack.room)
    (hlevels : p.machine.depth + 2 ≤ p.machine.maxNesting) {a b : Int64} {rest : List Value}
    (hvalues : p.machine.stack.values = .integer b :: .integer a :: rest) (l : Location) :
    (a.toInt < b.toInt → b.toInt - a.toInt ≤ Int64.maxValue.toInt →
      ∃ r, p.machine.LeavesNumber l rest r ∧ a.toInt ≤ r.toInt ∧ r.toInt < b.toInt) ∧
    (Int64.maxValue.toInt < b.toInt - a.toInt →
      p.machine.RefusesDistance l (b - a) (.integer a :: rest)) ∧
    (b.toInt ≤ a.toInt → Int64.minValue.toInt ≤ b.toInt - a.toInt →
      p.machine.RefusesDistance l (b - a) (.integer a :: rest)) ∧
    (b.toInt - a.toInt < Int64.minValue.toInt →
      ∃ r, p.machine.LeavesNumber l rest r ∧ (a.toInt ≤ r.toInt ∨ r.toInt < b.toInt)) := by
  have hmax : Int64.maxValue.toInt = 9223372036854775807 := rfl
  have hmin : Int64.minValue.toInt = -9223372036854775808 := rfl
  obtain ⟨room, hroom⟩ := Nat.exists_eq_add_of_le' hroom
  have hstack : p.machine.stack = ⟨.integer b :: .integer a :: rest, room + 1⟩ := by
    rw [← hvalues, ← hroom]
  have hcapacity : 2 ≤ p.machine.stack.capacity := by
    rw [hstack]
    simp only [Stack.capacity, List.length_cons]
    omega
  have hd := hp.keepsStandard hfull hcapacity hzero hone
  have hleaves := Machine.exists_leavesNumber (l := l) hd hlevels hstack
  have hrefuses := Machine.refusesDistance_of_not_pos (l := l) hd hlevels hstack
  have hpos := sub_pos_iff a b
  refine ⟨?_, ?_, ?_, ?_⟩
  · intro horder hnear
    obtain ⟨n, hn, hr⟩ := hleaves (hpos.mpr (.inl ⟨horder, hnear⟩))
    exact ⟨_, hr, (toInt_add_ofNat a b hn).1 horder⟩
  · intro hfar
    apply hrefuses
    rw [hpos]
    omega
  · intro horder hnear
    apply hrefuses
    rw [hpos]
    omega
  · intro hfar
    obtain ⟨n, hn, hr⟩ := hleaves (hpos.mpr (.inr hfar))
    exact ⟨_, hr, (toInt_add_ofNat a b hn).2 (by omega)⟩

/-- Between ten and twenty a number is found, between the smallest integer and zero none is, and the
largest integer is found between itself and the smallest one. -/
theorem random_between_extreme_bounds :
    ∃ (fuel : Nat) (m : Machine), Machine.full fuel { capacity := 3 } = (.done, m) ∧
      let n (a b : Int64) := m.withStack ⟨[.integer b, .integer a], 1⟩
      (∃ r, (n 10 20).LeavesNumber .start [] r ∧ 10 ≤ r.toInt ∧ r.toInt < 20) ∧
      (n Int64.minValue 0).RefusesDistance .start Int64.minValue [.integer Int64.minValue] ∧
      (n 20 10).RefusesDistance .start (-10) [.integer 20] ∧
      (n Int64.maxValue Int64.minValue).LeavesNumber .start [] Int64.maxValue := by
  obtain ⟨fuel, hfull⟩ := Machine.exists_full_eq (s := { capacity := 3 }) (by decide) (by decide)
  refine ⟨fuel, _, hfull, ?_⟩
  intro n
  have hlater (a b : Int64) : Later (.halted .done { Machine.bare { capacity := 3 } with
      dictionary := Library.standard }) (.halted .done (n a b)) :=
    later_of_request (r := .push (.integer a)) rfl
      (later_of_request (r := .push (.integer b)) rfl Relation.ReflTransGen.refl)
  have hzero : Library.standard.find? "0" = none := by decide
  have hone : Library.standard.find? "1" = none := by decide
  have hlevels : (Machine.bare { capacity := 3 }).depth + 2 ≤
      (Machine.bare { capacity := 3 }).maxNesting := by
    decide
  have hbetween (a b : Int64) := random_between_by_distance hfull (hlater a b) hzero hone
    (Nat.le_refl 1) hlevels rfl .start
  refine ⟨?_, ?_, ?_, ?_⟩
  · exact (hbetween 10 20).1 (by decide) (by decide)
  · exact (hbetween Int64.minValue 0).2.1 (by decide)
  · exact (hbetween 20 10).2.2.1 (by decide) (by decide)
  · obtain ⟨r, hr, hbounds⟩ := (hbetween Int64.maxValue Int64.minValue).2.2.2 (by decide)
    have hlargest : r = Int64.maxValue := by
      apply Int64.toInt_inj.mp
      have hlow := r.minValue_le_toInt
      have hhigh := r.toInt_le
      omega
    exact hlargest ▸ hr

end Progress

end StackScript
