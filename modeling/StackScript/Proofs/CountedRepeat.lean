import StackScript.Proofs.IntegerText
import StackScript.Proofs.StandardMeaning
/-!
# Counting on the stack

A text that is repeated as long as its count is smaller than a number leaves all counts on the
stack, up to the number.  Each pass needs two places more on the stack than it takes up in the end,
so it is known beforehand how many are needed, and with fewer of them the stack overflows in some
pass, or before the first one (`Progress.counted_repeat`).
-/

namespace StackScript

/-- The integers below a count on top of some values, the largest on top. -/
def counted (values : List Value) : Nat → List Value
  | 0 => values
  | k + 1 => .integer (.ofNat k) :: counted values k

theorem counted_eq (values : List Value) (k : Nat) :
    counted values k = ((List.range k).map fun i => Value.integer (.ofNat i)).reverse ++ values := by
  induction k with
  | zero => rfl
  | succ k ih => simp [counted, ih, List.range_succ]

def countingBody (N : Nat) : String :=
  spaced ["dup", N.repr, "is-smaller"]

def countingSource (N : Nat) : String :=
  "[dup " ++ N.repr ++ " is-smaller] repeat"

theorem countingSource_eq (N : Nat) :
    countingSource N = spaced ["[" ++ countingBody N ++ "]", "repeat"] := by
  rw [← String.toList_inj]
  simp [countingSource, spaced, countingBody]

theorem callable_countingBody (N : Nat) :
    ∀ name ∈ ["dup", N.repr, "is-smaller"], Callable name := by
  have hwords : Callable "dup" ∧ Callable "is-smaller" := by decide
  simp [hwords, (Integer.denotes_repr N).callable]

theorem bracketed_countingBody (N : Nat) : Bracketed (countingBody N) := by
  have hdigits := (Integer.isNumeral_repr N).2
  rw [Nat.toList_repr] at hdigits
  have hopening : '[' ∉ Nat.toDigits 10 N := fun h => by simpa using hdigits _ h
  have hclosing : ']' ∉ Nat.toDigits 10 N := fun h => by simpa using hdigits _ h
  apply bracketed_of_not_mem
  · simp [countingBody, spaced, hopening]
  · simp [countingBody, spaced, hclosing]

theorem reads_counting (N : Nat) :
    List.Forall₂ Reads ["[" ++ countingBody N ++ "]", "repeat"]
      [.quotation (countingBody N), .call "repeat"] := by
  have hrepeat : Callable "repeat" := by decide
  exact .cons (bracketed_countingBody N).reads (.cons hrepeat.reads .nil)

namespace Machine

variable {m : Machine} {values : List Value} {room N i : Nat} {a : Value}

theorem fails_dup (hd : m.dictionary.KeepsStandard) (hm : m.depth < m.maxNesting)
    (hroom : m.stack.room = 0) : m.Fails "0 pick" .overflow := by
  have hcallable : ∀ name ∈ ["0", "pick"], Callable name := by decide
  have htexts : List.Forall₂ Reads ["0", "pick"] ([] ++ .call "0" :: [.call "pick"]) :=
    reads_calls hcallable
  have hzero : m.opened.FailsAt (.call "0") .overflow := .number hd.zero rfl hroom
  have hbody : "0 pick" = spaced ["0", "pick"] := rfl
  rw [hbody]
  exact fails_spaced hm htexts .nil hzero

section Pass

variable (hd : m.dictionary.KeepsStandard) (hnumber : m.dictionary.action? N.repr = none)
  (hm : m.depth + 2 ≤ m.maxNesting) (hN : N < 2 ^ 63)

include hd hnumber hm hN

theorem sourceEnds_counting (values : List Value) (room : Nat) (hi : i < 2 ^ 63) :
    (m.withStack ⟨counted values (i + 1), room + 2⟩).SourceEnds (.ofText (countingBody N)) .done
      (m.withStack ⟨.boolean (i < N) :: counted values (i + 1), room + 1⟩) := by
  let k := m.withStack ⟨counted values (i + 1), room + 2⟩
  have hdup := sourceEnds_dup (m := k.opened) hd hm rfl
  have hsmaller : Pairing.isSmaller.combine? (.integer (.ofNat i)) (.integer (.ofNat N)) =
      some (.ok (.boolean (i < N))) := by
    simp only [Pairing.combine?, Pairing.onIntegers, Int64.ofNat_lt_iff_lt hi hN]
  exact sourceEnds_spaced (m := k) (Nat.lt_of_succ_lt hm) (reads_calls (callable_countingBody N))
    (.cons (fun _ _ => .word hd rfl hdup)
      (.number hnumber (Integer.parse_repr hN) rfl (.pair (hd.action?_eq rfl) rfl hsmaller .nil)))

theorem fails_counting (hroom : room < 2) :
    (m.withStack ⟨a :: values, room⟩).Fails (countingBody N) .overflow := by
  have htexts := reads_calls (callable_countingBody N)
  let k := m.withStack ⟨a :: values, room⟩
  have hlevel : k.depth < k.maxNesting := Nat.lt_of_succ_lt hm
  cases room with
  | zero =>
    have hdup := fails_dup (m := k.opened) hd hm rfl
    exact fails_spaced hlevel htexts .nil (.enter (hd.action?_eq rfl) rfl hdup)
  | succ room =>
    have hfull : room = 0 := by omega
    have hdup := sourceEnds_dup (m := k.opened) hd hm rfl
    have hcopied : k.opened.Does [.call "dup"] _ := .cons (fun _ _ => .word hd rfl hdup) .nil
    exact fails_spaced hlevel htexts hcopied (.number hnumber (Integer.parse_repr hN) hfull)

theorem turns_counting_of_lt {last : Effect} (hi : i < N)
    (hnext : (Effect.pass (countingBody N) (.ofNat (i + 1))
      (m.withStack ⟨counted values (i + 2), room + 1⟩)).Turns last) :
    (Effect.pass (countingBody N) (.ofNat i)
      (m.withStack ⟨counted values (i + 1), room + 2⟩)).Turns last := by
  have hpass := sourceEnds_counting hd hnumber hm hN values room (Nat.lt_trans hi hN)
  rw [decide_eq_true hi] at hpass
  have hcount : Int64.ofNat i + 1 = .ofNat (i + 1) := (Int64.ofNat_add i 1).symm
  have hend : (m.withStack ⟨.boolean true :: counted values (i + 1), room + 1⟩).endPass
      (countingBody N) (.ofNat i) =
        .pass (countingBody N) (.ofNat (i + 1)) (m.withStack ⟨counted values (i + 2), room + 1⟩) := by
    have hnumbers : counted values (i + 2) = .integer (.ofNat i + 1) :: counted values (i + 1) := by
      rw [hcount]
      rfl
    rw [hnumbers, ← hcount]
    exact endPass_of_true rfl
  rw [← hend] at hnext
  exact .again hpass hnext

/-- With enough places there is a pass for each count up to the number, and the last one leaves a
boolean that is taken off. -/
theorem turns_counting {left : Nat} (hleft : i + left = N) :
    (Effect.pass (countingBody N) (.ofNat i)
      (m.withStack ⟨counted values (i + 1), room + left + 2⟩)).Turns
      (.settled (.done (m.withStack ⟨counted values (N + 1), room + 2⟩))) := by
  induction left generalizing i with
  | zero =>
    have hequal : i = N := hleft
    subst hequal
    have hlast := sourceEnds_counting hd hnumber hm hN values room hN
    rw [decide_eq_false (Nat.lt_irrefl i)] at hlast
    have hend : (m.withStack ⟨.boolean false :: counted values (i + 1), room + 1⟩).endPass
        (countingBody i) (.ofNat i) =
          .settled (.done (m.withStack ⟨counted values (i + 1), room + 2⟩)) :=
      endPass_of_false rfl
    refine .again hlast ?_
    rw [hend]
    exact .refl _
  | succ left ih =>
    have hnext := ih (i := i + 1) (by omega)
    exact turns_counting_of_lt hd hnumber hm hN (by omega) hnext

/-- With too few places some pass overflows the stack. -/
theorem exists_turns_overflow (values : List Value) (hroom : i + room < N + 2) :
    ∃ last e n, (Effect.pass (countingBody N) (.ofNat i)
      (m.withStack ⟨counted values (i + 1), room⟩)).Turns last ∧
      last.Concludes (.failed e) n ∧ e.cause = .overflow := by
  induction room using Nat.strong_induction_on generalizing i with
  | _ room ih =>
    by_cases hfew : room < 2
    · obtain ⟨e, n, hcause, hends⟩ :=
        fails_counting (a := .integer (.ofNat i)) hd hnumber hm hN hfew
      exact ⟨_, e, n, .refl _, ⟨by simp, hends⟩, hcause⟩
    · obtain ⟨room, rfl⟩ := Nat.exists_eq_add_of_le' (Nat.le_of_not_lt hfew)
      obtain ⟨last, e, n, hturns, hconcludes, hcause⟩ :=
        ih (room + 1) (by omega) (i := i + 1) (by omega)
      have hnext := turns_counting_of_lt hd hnumber hm hN (by omega) hturns
      exact ⟨last, e, n, hnext, hconcludes, hcause⟩

end Pass

theorem perform_counting :
    (Action.primitive .cycle).perform
      (m.withStack ⟨.quotation (countingBody N) :: values, room⟩) =
        .pass (countingBody N) (.ofNat 0) (m.withStack ⟨counted values 1, room⟩) :=
  perform_cycle rfl

section Source

variable (hd : m.dictionary.KeepsStandard) (hnumber : m.dictionary.action? N.repr = none)
  (hm : m.depth + 3 ≤ m.maxNesting) (hN : N < 2 ^ 63)

include hd hnumber hm hN

theorem leaves_counting (hroom : N + 3 ≤ m.stack.room) :
    m.Leaves (countingSource N) (counted m.stack.values (N + 1)) := by
  obtain ⟨room, hroom⟩ := Nat.exists_eq_add_of_le' hroom
  have hstack : m.opened.stack = ⟨m.stack.values, room + N + 2 + 1⟩ :=
    congrArg (Stack.mk m.stack.values) hroom
  have hturns : ((Action.primitive .cycle).perform (m.opened.withStack
      ⟨.quotation (countingBody N) :: m.stack.values, room + N + 2⟩)).Turns
      (.settled (.done (m.opened.withStack ⟨counted m.stack.values (N + 1), room + 2⟩))) := by
    rw [perform_counting]
    exact turns_counting (m := m.opened) hd hnumber hm hN (Nat.zero_add N)
  rw [countingSource_eq]
  exact leaves_spaced (Nat.lt_of_succ_lt (Nat.lt_of_succ_lt hm)) (reads_counting N)
    (.cons (fun _ _ => .literal rfl hstack)
      (.cons (fun _ _ => .turns (hd.action?_eq rfl) hturns ⟨rfl, rfl⟩) .nil))

theorem fails_countingSource (hroom : m.stack.room < N + 3) :
    m.Fails (countingSource N) .overflow := by
  have hlevel : m.depth < m.maxNesting := Nat.lt_of_succ_lt (Nat.lt_of_succ_lt hm)
  rw [countingSource_eq]
  rcases hrooms : m.stack.room with _ | room
  · exact fails_spaced hlevel (reads_counting N) .nil (.literal rfl hrooms)
  · have hstack : m.opened.stack = ⟨m.stack.values, room + 1⟩ :=
      congrArg (Stack.mk m.stack.values) hrooms
    have hpushed : m.opened.Does [.quotation (countingBody N)] _ :=
      .cons (fun _ _ => .literal rfl hstack) .nil
    have hfew : 0 + room < N + 2 := by omega
    obtain ⟨last, e, n, hturns, hconcludes, hcause⟩ :=
      exists_turns_overflow (m := m.opened) hd hnumber hm hN m.stack.values hfew
    rw [← perform_counting] at hturns
    exact fails_spaced hlevel (reads_counting N) hpushed
      (.turns (hd.action?_eq rfl) hturns hconcludes hcause)

end Source

end Machine

theorem Library.find?_standard_of_denotes {text : String} {i : Int64}
    (h : Integer.Denotes text i.toInt) : standard.find? text = none := by
  have hnames : ∀ w ∈ standard.words, (Integer.parse w.name).toOption = none := by
    decide
  rw [Dictionary.find?, List.find?_eq_none]
  intro w hw hname
  have hnone := hnames w hw
  rw [eq_of_beq hname, Integer.parse_eq_ok_iff.mpr h] at hnone
  cases hnone

namespace Progress

/-- In a full machine, whatever it has run, as long as the integers are numbers and three more texts
may be running, a text that is repeated as long as its count is smaller than `N` succeeds if there
are three more places on the stack than `N`.  Then it leaves the integers up to `N` on the values
that were there.  With fewer places the stack overflows. -/
theorem counted_repeat {s : Machine.Settings} {fuel : Nat} {m : Machine} {p : Progress}
    (hfull : Machine.full fuel s = (.done, m)) (hp : Later (.halted .done m) p)
    (hnumbers : ∀ (text : String) (i : Int64), Integer.Denotes text i.toInt →
      p.machine.dictionary.find? text = none)
    (hlevels : p.machine.depth + 3 ≤ p.machine.maxNesting) {N : Nat} (hN : N < 2 ^ 63) :
    ((∃ n, p.machine.SourceEnds (.ofText (countingSource N)) .done n) ↔
      N + 3 ≤ p.machine.stack.room) ∧
    (N + 3 ≤ p.machine.stack.room → p.machine.Leaves (countingSource N)
      (((List.range (N + 1)).map fun i => .integer (.ofNat i)).reverse ++
        p.machine.stack.values)) ∧
    (p.machine.stack.room < N + 3 → ∃ e n,
      p.machine.SourceEnds (.ofText (countingSource N)) (.failed e) n ∧
        e.root = .ofCause .overflow) := by
  have hreachable : p.Reachable s := ⟨m, .full hfull, hp⟩
  have hcapacity : 2 ≤ p.machine.stack.capacity := by
    rw [hreachable.later_bare.follows.capacity]
    exact Machine.two_le_capacity_of_full hfull
  have hnumber (i : Int64) {text : String} (hparse : Integer.parse text = .ok i) :
      p.machine.dictionary.find? text = none :=
    hnumbers text i (Integer.parse_eq_ok_iff.mp hparse)
  have hd := hp.keepsStandard hfull hcapacity (hnumber 0 rfl) (hnumber 1 rfl)
  have hname : p.machine.dictionary.action? N.repr = none :=
    Option.map_eq_none_iff.mpr (hnumber _ (Integer.parse_repr hN))
  have hleaves := Machine.leaves_counting hd hname hlevels hN
  have hfails := Machine.fails_countingSource hd hname hlevels hN
  rw [← counted_eq]
  refine ⟨?_, hleaves, ?_⟩
  · constructor
    · intro h
      obtain ⟨n, hdone⟩ := h
      by_contra hroom
      obtain ⟨e, k, hcause, hends⟩ := hfails (Nat.lt_of_not_le hroom)
      cases (Ends.unique hdone hends).1
    · intro hroom
      exact ⟨_, hleaves hroom⟩
  · intro hroom
    obtain ⟨e, n, hcause, hends⟩ := hfails hroom
    exact ⟨e, n, hends, by rw [Error.root_eq, hcause]⟩

/-- Five places are enough for the integers up to two, and not for those up to three. -/
theorem five_places_for_two :
    ∃ (fuel : Nat) (m : Machine), Machine.full fuel { capacity := 5 } = (.done, m) ∧
      m.Leaves "[dup 2 is-smaller] repeat" [.integer 2, .integer 1, .integer 0] ∧
      ∃ e n, m.SourceEnds (.ofText "[dup 3 is-smaller] repeat") (.failed e) n ∧
        e.root = .ofCause .overflow := by
  obtain ⟨fuel, hfull⟩ := Machine.exists_full_eq (s := { capacity := 5 }) (by decide) (by decide)
  have hnumbers : ∀ (text : String) (i : Int64), Integer.Denotes text i.toInt →
      Library.standard.find? text = none :=
    fun _ _ h => Library.find?_standard_of_denotes h
  have hrepeat {N : Nat} (hN : N < 2 ^ 63) :=
    counted_repeat hfull Relation.ReflTransGen.refl hnumbers (by decide) hN
  obtain ⟨-, htwo, -⟩ := hrepeat (N := 2) (by decide)
  obtain ⟨-, -, hthree⟩ := hrepeat (N := 3) (by decide)
  exact ⟨fuel, _, hfull, htwo (by decide), hthree (by decide)⟩

end Progress

end StackScript
