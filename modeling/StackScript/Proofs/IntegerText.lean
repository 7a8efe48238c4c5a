import Mathlib.Algebra.Group.Int.Defs
import Mathlib.Algebra.Group.Nat.Defs
import StackScript.Proofs.ErrorChain
import StackScript.Proofs.SpacedWords
/-!
# Integers as texts

A text denotes an integer if it is one or more decimal digits, with or without a sign in front of
them.  Reading a text finds the integer that it denotes, if that is one of 64 bits
(`Integer.parse_eq_ok_iff`); an integer that is written denotes itself (`Integer.denotes_render`).
A name without a meaning and a text on the stack are read in the same way, so that the two agree
(`Machine.integer_texts_agree`).
-/

namespace StackScript

namespace Integer

def IsNumeral (cs : List Char) : Prop :=
  cs ≠ [] ∧ ∀ c ∈ cs, c.isDigit

instance (cs : List Char) : Decidable (IsNumeral cs) :=
  inferInstanceAs (Decidable (_ ∧ _))

/-- The characters are a numeral with an optional sign in front of it, and say the integer. -/
inductive Says : List Char → Int → Prop
  | unsigned {ds : List Char} (h : IsNumeral ds) : Says ds (Nat.ofDigitChars 10 ds 0)
  | plus {ds : List Char} (h : IsNumeral ds) : Says ('+' :: ds) (Nat.ofDigitChars 10 ds 0)
  | minus {ds : List Char} (h : IsNumeral ds) : Says ('-' :: ds) (-Nat.ofDigitChars 10 ds 0)

/-- The text is an optional sign and one or more decimal digits, and says the integer. -/
def Denotes (text : String) (i : Int) : Prop :=
  Says text.toList i

section Digits

variable {limit value n : Nat} {beyond : Defect} {c : Char} {cs : List Char}

theorem digit?_of_isDigit (hc : c.isDigit) : digit? c = some (c.toNat - '0'.toNat) :=
  if_pos hc

theorem digit?_of_not_isDigit (hc : ¬ c.isDigit) : digit? c = none :=
  if_neg hc

theorem le_ofDigitChars (value : Nat) (cs : List Char) :
    value ≤ Nat.ofDigitChars 10 cs value := by
  induction cs generalizing value with
  | nil => simp
  | cons c cs ih =>
    have hrest := ih (10 * value + (c.toNat - '0'.toNat))
    rw [Nat.ofDigitChars_cons]
    omega

theorem magnitude_eq_ok_iff (hvalue : value ≤ limit) :
    magnitude limit beyond value cs = .ok n ↔
      (∀ c ∈ cs, c.isDigit) ∧ n = Nat.ofDigitChars 10 cs value ∧ n ≤ limit := by
  induction cs generalizing value with
  | nil =>
    simp only [magnitude, Except.ok.injEq, Nat.ofDigitChars_nil]
    constructor
    · intro h
      exact ⟨by simp, h.symm, h ▸ hvalue⟩
    · intro h
      exact h.2.1.symm
  | cons c cs ih =>
    by_cases hc : c.isDigit
    · have hnext : 10 * value + (c.toNat - '0'.toNat) = value * 10 + (c.toNat - '0'.toNat) := by
        rw [Nat.mul_comm]
      simp only [magnitude, digit?_of_isDigit hc, List.forall_mem_cons, hc, true_and,
        Nat.ofDigitChars_cons, hnext]
      split
      · have hle := le_ofDigitChars (value * 10 + (c.toNat - '0'.toNat)) cs
        simp only [reduceCtorEq, false_iff]
        omega
      · exact ih (by omega)
    · simp [magnitude, digit?_of_not_isDigit hc, hc]

theorem digits_eq_ok_iff :
    digits limit beyond cs = .ok n ↔
      IsNumeral cs ∧ n = Nat.ofDigitChars 10 cs 0 ∧ n ≤ limit := by
  cases cs with
  | nil => simp [digits, IsNumeral]
  | cons c cs =>
    have hmagnitude : magnitude limit beyond 0 (c :: cs) = .ok n ↔ _ :=
      magnitude_eq_ok_iff (Nat.zero_le limit)
    simp only [digits, hmagnitude, IsNumeral, ne_eq, reduceCtorEq, not_false_eq_true, true_and]

end Digits

section Parse

variable {c : Char} {cs : List Char} {i : Int} {n : Int64}

theorem not_isNumeral_cons (hc : c.isDigit = false) : ¬ IsNumeral (c :: cs) := by
  intro h
  simp [h.2 c (List.mem_cons_self)] at hc

theorem says_plus_iff :
    Says ('+' :: cs) i ↔ IsNumeral cs ∧ i = Nat.ofDigitChars 10 cs 0 := by
  constructor
  · intro h
    cases h with
    | unsigned h => exact absurd h (not_isNumeral_cons rfl)
    | plus h => exact ⟨h, rfl⟩
  · intro h
    exact h.2 ▸ .plus h.1

theorem says_minus_iff :
    Says ('-' :: cs) i ↔ IsNumeral cs ∧ i = -Nat.ofDigitChars 10 cs 0 := by
  constructor
  · intro h
    cases h with
    | unsigned h => exact absurd h (not_isNumeral_cons rfl)
    | minus h => exact ⟨h, rfl⟩
  · intro h
    exact h.2 ▸ .minus h.1

theorem says_unsigned_iff (hplus : ∀ ds, cs ≠ '+' :: ds) (hminus : ∀ ds, cs ≠ '-' :: ds) :
    Says cs i ↔ IsNumeral cs ∧ i = Nat.ofDigitChars 10 cs 0 := by
  constructor
  · intro h
    cases h with
    | unsigned h => exact ⟨h, rfl⟩
    | plus h => exact absurd rfl (hplus _)
    | minus h => exact absurd rfl (hminus _)
  · intro h
    exact h.2 ▸ .unsigned h.1

private theorem map_digits_eq_ok_iff {limit : Nat} {beyond : Defect} (sign : Int → Int)
    (hsign : ∀ k : Nat, k ≤ limit ↔ -2 ^ 63 ≤ sign k ∧ sign k < 2 ^ 63) :
    Except.map (fun i => Int64.ofInt (sign i)) (digits limit beyond cs) = .ok n ↔
      IsNumeral cs ∧ n.toInt = sign (Nat.ofDigitChars 10 cs 0) := by
  constructor
  · intro h
    rcases hdigits : digits limit beyond cs with defect | k
    · rw [hdigits] at h
      cases h
    · rw [hdigits] at h
      cases h
      obtain ⟨hcs, rfl, hlimit⟩ := digits_eq_ok_iff.mp hdigits
      obtain ⟨hlow, hhigh⟩ := (hsign _).mp hlimit
      exact ⟨hcs, Int64.toInt_ofInt_of_le hlow hhigh⟩
  · intro h
    obtain ⟨hcs, hn⟩ := h
    have hlimit : Nat.ofDigitChars 10 cs 0 ≤ limit := by
      rw [hsign, ← hn]
      exact ⟨n.le_toInt, n.toInt_lt⟩
    rw [digits_eq_ok_iff.mpr ⟨hcs, rfl, hlimit⟩]
    show Except.ok (Int64.ofInt (sign (Nat.ofDigitChars 10 cs 0))) = _
    rw [← hn, Int64.ofInt_toInt]

theorem parseChars_eq_ok_iff : parseChars cs = .ok n ↔ Says cs n.toInt := by
  have hpow : Nat.pow 2 63 = 9223372036854775808 := rfl
  have hpositive (k : Nat) : k ≤ Nat.pow 2 63 - 1 ↔ -2 ^ 63 ≤ (k : Int) ∧ (k : Int) < 2 ^ 63 := by
    omega
  have hnegative (k : Nat) : k ≤ Nat.pow 2 63 ↔ -2 ^ 63 ≤ -(k : Int) ∧ -(k : Int) < 2 ^ 63 := by
    omega
  fun_cases parseChars cs with
  | case1 => simp [says_unsigned_iff, IsNumeral]
  | case2 rest => rw [map_digits_eq_ok_iff (fun i => i) hpositive, says_plus_iff]
  | case3 rest => rw [map_digits_eq_ok_iff Neg.neg hnegative, says_minus_iff]
  | case4 cs hne hplus hminus =>
    rw [map_digits_eq_ok_iff (fun i => i) hpositive, says_unsigned_iff hplus hminus]

/-- A text is read as the integer that it denotes, and no other text is read as one. -/
theorem parse_eq_ok_iff {text : String} : parse text = .ok n ↔ Denotes text n.toInt :=
  parseChars_eq_ok_iff

theorem isNumeral_repr (k : Nat) : IsNumeral k.repr.toList := by
  rw [Nat.toList_repr]
  exact ⟨Nat.toDigits_ne_nil, fun c hc => Nat.isDigit_of_mem_toDigits (by decide) (by decide) hc⟩

theorem ofDigitChars_repr (k : Nat) : Nat.ofDigitChars 10 k.repr.toList 0 = k := by
  rw [Nat.toList_repr, Nat.ofDigitChars_ten_toDigits]

theorem denotes_repr (k : Nat) : Denotes k.repr k := by
  have hsays := Says.unsigned (isNumeral_repr k)
  rwa [ofDigitChars_repr] at hsays

theorem denotes_render (n : Int64) : Denotes (render n) n.toInt := by
  rw [render]
  generalize n.toInt = i
  cases i with
  | ofNat k => exact denotes_repr k
  | negSucc k =>
    have hsays := Says.minus (isNumeral_repr (k + 1))
    rw [ofDigitChars_repr] at hsays
    rwa [Denotes, String.toList_append]

theorem parse_render (n : Int64) : parse (render n) = .ok n :=
  parse_eq_ok_iff.mpr (denotes_render n)

theorem parse_repr {k : Nat} (hk : k < 2 ^ 63) : parse k.repr = .ok (.ofNat k) := by
  rw [parse_eq_ok_iff, Int64.toInt_ofNat_of_lt hk]
  exact denotes_repr k

theorem Says.signs_or_digits (h : Says cs i) :
    cs ≠ [] ∧ ∀ c ∈ cs, c = '+' ∨ c = '-' ∨ c.isDigit := by
  cases h with
  | unsigned h => exact ⟨h.1, fun c hc => .inr (.inr (h.2 c hc))⟩
  | plus h =>
    refine ⟨by simp, List.forall_mem_cons.mpr ⟨.inl rfl, ?_⟩⟩
    exact fun c hc => .inr (.inr (h.2 c hc))
  | minus h =>
    refine ⟨by simp, List.forall_mem_cons.mpr ⟨.inr (.inl rfl), ?_⟩⟩
    exact fun c hc => .inr (.inr (h.2 c hc))

theorem Denotes.callable {text : String} (h : Denotes text i) : Callable text := by
  obtain ⟨hne, hchars⟩ := h.signs_or_digits
  have hcode : ∀ c ∈ text.toList, c.toNat = 43 ∨ c.toNat = 45 ∨ 48 ≤ c.toNat ∧ c.toNat ≤ 57 := by
    intro c hc
    rcases hchars c hc with rfl | rfl | hdigit
    · exact .inl rfl
    · exact .inr (.inl rfl)
    · exact .inr (.inr (Char.isDigit_iff_toNat.mp hdigit))
  constructor
  · obtain ⟨c, cs, hcs⟩ := List.exists_cons_of_ne_nil hne
    have hc := hcode c (hcs ▸ List.mem_cons_self)
    have hlayout := Utf8.layout_utf8EncodeChar c
    generalize hbytes : String.utf8EncodeChar c = bytes at hlayout
    cases hlayout with
    | @one b hv hb =>
      refine ⟨b, cs.flatMap String.utf8EncodeChar, ?_, ?_, ?_, ?_⟩
      · rw [Utf8.encode, hcs, List.flatMap_cons, hbytes]
        rfl
      · show (33 : UInt8).toNat ≤ b.toNat
        simp
        omega
      · show b.toNat ≤ (126 : UInt8).toNat
        simp
        omega
      · intro hmark
        simp only [List.mem_cons, List.not_mem_nil, or_false, ← UInt8.toNat_inj] at hmark
        have hcodes : b.toNat = 91 ∨ b.toNat = 93 ∨ b.toNat = 40 ∨ b.toNat = 34 ∨ b.toNat = 42 :=
          hmark
        omega
    | two hv => omega
    | three hv => omega
    | four hv => omega
  · intro c hc hblank
    have hvisible := hcode c hc
    simp only [List.mem_cons, List.not_mem_nil, or_false] at hblank
    rcases hblank with rfl | rfl | rfl <;> simp at hvisible

end Parse

end Integer

namespace Machine

open Integer (Denotes render)

section Unnamed

variable {m : Machine} {t : String} {i : Int64}

theorem leaves_number (hm : m.depth < m.maxNesting) (ht : Denotes t i.toInt)
    (hname : m.dictionary.find? t = none) (hroom : 0 < m.stack.room) :
    m.Leaves t (.integer i :: m.stack.values) := by
  have haction : m.opened.dictionary.action? t = none := Option.map_eq_none_iff.mpr hname
  have hstack : m.opened.stack = ⟨m.stack.values, m.stack.room - 1 + 1⟩ := by
    rw [Nat.sub_add_cancel hroom]
    rfl
  exact leaves_of_reads hm ht.callable.reads
    (.number haction (Integer.parse_eq_ok_iff.mpr ht) hstack .nil)

theorem sourceEnds_unknown (hm : m.depth < m.maxNesting) (ht : Callable t)
    (hname : m.dictionary.find? t = none) (hparse : ∀ i : Int64, ¬ Denotes t i.toInt) :
    m.SourceEnds (.ofText t) (.failed ((Error.ofCause (.unknownWord t)).within ⟨.start, none⟩))
      m := by
  have hfails : (m.opened.obey [] ⟨.start, .call t⟩).Ends
      (.failed ((Error.ofCause (.unknownWord t)).within ⟨.start, none⟩)) m.opened := by
    have hfind : m.opened.dictionary.find? t = none := hname
    apply ends_obey_of_meaning_failed
    rcases hdefect : Integer.parse t with defect | i
    · simp only [meaning, hfind, number, hdefect]
    · exact absurd (Integer.parse_eq_ok_iff.mp hdefect) (hparse i)
  exact sourceEnds_of_failed hm ht.tokens_eq .nil hfails

theorem leaves_number_iff (hm : m.depth < m.maxNesting) (ht : Callable t)
    (hname : m.dictionary.find? t = none) (hroom : 0 < m.stack.room) :
    m.Leaves t (.integer i :: m.stack.values) ↔ Denotes t i.toInt := by
  constructor
  · intro h
    by_contra hnot
    by_cases hother : ∃ j : Int64, Denotes t j.toInt
    · obtain ⟨j, hj⟩ := hother
      have hsame := h.unique (leaves_number hm hj hname hroom)
      simp only [List.cons.injEq, Value.integer.injEq, and_true] at hsame
      exact hnot (hsame ▸ hj)
    · have hfails := sourceEnds_unknown hm ht hname (not_exists.mp hother)
      have hsame := (Progress.Ends.unique h hfails).1
      cases hsame
  · intro h
    exact leaves_number hm h hname hroom

end Unnamed

/-- A text on the stack and a name without a meaning are read as the integer that they denote, if it
is one of 64 bits.  Otherwise the one becomes a text that says why, and the other is unknown.  An
integer that is written as a text is read back from it in both ways. -/
theorem integer_texts_agree {s : Settings} {v : Verdict} {m : Machine}
    (hm : (Progress.halted v m).Reachable s) (hv : v.returns) :
    (∀ t rest, m.stack.values = .text t :: rest →
      ∃ result, m.Leaves "to-integer" (result :: rest) ∧
        (∀ i, result = .integer i ↔ Denotes t i.toInt) ∧
        ((∀ i : Int64, ¬ Denotes t i.toInt) → ∃ reason, result = .text reason)) ∧
    (∀ t, Callable t → m.dictionary.find? t = none → 0 < m.stack.room →
      (∀ i, m.Leaves t (.integer i :: m.stack.values) ↔ Denotes t i.toInt) ∧
      ((∀ i : Int64, ¬ Denotes t i.toInt) →
        ∃ e, m.SourceEnds (.ofText t) (.failed e) m ∧ e.root = .ofCause (.unknownWord t))) ∧
    (∀ i rest, m.stack.values = .integer i :: rest →
      m.Leaves "to-text" (.text (render i) :: rest) ∧
      m.Leaves (spaced ["to-text", "to-integer"]) (.integer i :: rest)) ∧
    ∀ i, m.dictionary.find? (render i) = none → 0 < m.stack.room →
      m.Leaves (render i) (.integer i :: m.stack.values) := by
  have hlevel := hm.depth_lt hv
  have htoInteger := hm.action?_of_natives (show Library.natives.action? "to-integer" = _ by rfl)
  have htoText := hm.action?_of_natives (show Library.natives.action? "to-text" = _ by rfl)
  refine ⟨?_, ?_, ?_, ?_⟩
  · intro t rest hvalues
    have happly : m.stack.apply (.convert .toInteger) =
        .done ⟨Conversion.integerOfText t :: rest, m.stack.room⟩ := by
      simp only [Stack.apply, Stack.convert, hvalues]
      rfl
    have hleaves := leaves_operation hlevel (by decide) htoInteger happly
    refine ⟨_, hleaves, ?_, ?_⟩
    · intro i
      rw [← Integer.parse_eq_ok_iff, Conversion.integerOfText]
      split <;> simp_all
    · intro hnone
      rcases hparse : Integer.parse t with defect | i
      · rw [Conversion.integerOfText, hparse]
        exact ⟨_, rfl⟩
      · exact absurd (Integer.parse_eq_ok_iff.mp hparse) (hnone i)
  · intro t ht hname hroom
    refine ⟨fun i => leaves_number_iff hlevel ht hname hroom, ?_⟩
    intro hnone
    exact ⟨_, sourceEnds_unknown hlevel ht hname hnone, Error.root_eq _⟩
  · intro i rest hvalues
    have hwritten : m.stack.apply (.convert .toText) =
        .done ⟨.text (render i) :: rest, m.stack.room⟩ := by
      simp only [Stack.apply, Stack.convert, hvalues]
      rfl
    have hread : (⟨.text (render i) :: rest, m.stack.room⟩ : Stack).apply (.convert .toInteger) =
        .done ⟨.integer i :: rest, m.stack.room⟩ := by
      simp only [Stack.apply, Stack.convert, Conversion.convert?, Conversion.integerOfText,
        Integer.parse_render]
      rfl
    refine ⟨leaves_operation hlevel (by decide) htoText hwritten, ?_⟩
    exact leaves_calls hlevel (by decide)
      (.operate (m := m.opened) htoText rfl hwritten (.operate htoInteger rfl hread .nil))
  · intro i hname hroom
    exact leaves_number hlevel (Integer.denotes_render i) hname hroom

/-- Zeros and signs in front make no difference, up to the last integer on either side. -/
theorem largest_and_smallest_integer_as_text :
    let m := Machine.bare { capacity := 2 }
    (∃ n, m.accept (.push (.text "-09223372036854775808")) = .halted .done n ∧
      n.Leaves "to-integer" [.integer Int64.minValue]) ∧
    m.Leaves "+9223372036854775807" [.integer Int64.maxValue] ∧
    ∃ e, m.SourceEnds (.ofText "9223372036854775808") (.failed e) m ∧
      e.root = .ofCause (.unknownWord "9223372036854775808") := by
  intro m
  have hm : (Progress.halted .done m).Reachable { capacity := 2 } :=
    ⟨m, .bare, Relation.ReflTransGen.refl⟩
  let n := m.withStack ⟨[.text "-09223372036854775808"], 1⟩
  have hn : (Progress.halted .done n).Reachable { capacity := 2 } :=
    hm.later (Progress.later_of_request (r := .push (.text "-09223372036854775808")) rfl
      Relation.ReflTransGen.refl)
  obtain ⟨htoInteger, -⟩ := integer_texts_agree hn rfl
  obtain ⟨-, hcalls, -⟩ := integer_texts_agree hm rfl
  have hsmallest : Integer.parse "-09223372036854775808" = .ok Int64.minValue := rfl
  have hlargest : Integer.parse "+9223372036854775807" = .ok Int64.maxValue := rfl
  have hbeyond : Integer.parse "9223372036854775808" = .error .tooLarge := rfl
  refine ⟨⟨n, rfl, ?_⟩, ?_, ?_⟩
  · obtain ⟨result, hleaves, hresult, -⟩ := htoInteger _ [] rfl
    rwa [(hresult _).mpr (Integer.parse_eq_ok_iff.mp hsmallest)] at hleaves
  · have hdenotes := Integer.parse_eq_ok_iff.mp hlargest
    exact ((hcalls _ hdenotes.callable (by decide) (by decide)).1 _).mpr hdenotes
  · have hcallable : Callable "9223372036854775808" := by decide
    refine (hcalls _ hcallable (by decide) (by decide)).2 ?_
    intro i hdenotes
    rw [← Integer.parse_eq_ok_iff, hbeyond] at hdenotes
    cases hdenotes

end Machine

end StackScript
