import StackScript.Proofs.Framing
import StackScript.Proofs.Nesting
import StackScript.Proofs.PrimitiveCall
import StackScript.Proofs.WellFormedText
/-!
# Lines of the input

The line input is cut after each line feed (`cutLines`), and every reading of a line takes the next
of these lines, whatever comes of it (`Console.readLine_eq`).  A run whose texts are all held in
memory takes lines by its calls of `read` only: the lines it found are those it has taken, in order,
and those it has left (`Progress.Private.cutLines_input_run`).
-/

namespace StackScript

/-- Some bytes, cut after each line feed. -/
def cutLines : List UInt8 → List (List UInt8)
  | [] => []
  | b :: bytes =>
    if b = 10 then [b] :: cutLines bytes
    else
      match cutLines bytes with
      | [] => [[b]]
      | line :: lines => (b :: line) :: lines

/-- A line without the line feed that ends it, and without one carriage return before that. -/
def withoutEnding (line : List UInt8) : List UInt8 :=
  if line.getLast? = some 10 then
    if line.dropLast.getLast? = some 13 then line.dropLast.dropLast else line.dropLast
  else line

/-- What reading a line gives. -/
def lineText (line : List UInt8) : Except Failure String :=
  match Utf8.decode (withoutEnding line) with
  | .ok text => .ok text
  | .error _ => .error .malformedLine

section Cutting

variable {line : List UInt8}

theorem cutLines_of_not_mem (h : 10 ∉ line) (hne : line ≠ []) : cutLines line = [line] := by
  induction line with
  | nil => exact absurd rfl hne
  | cons b line ih =>
    rw [List.mem_cons, not_or] at h
    rw [cutLines, if_neg (Ne.symm h.1)]
    cases line with
    | nil => rfl
    | cons c line => rw [ih h.2 (List.cons_ne_nil c line)]

theorem cutLines_append (h : 10 ∉ line) (rest : List UInt8) :
    cutLines (line ++ 10 :: rest) = (line ++ [10]) :: cutLines rest := by
  induction line with
  | nil => rw [List.nil_append, cutLines, if_pos rfl, List.nil_append]
  | cons b line ih =>
    rw [List.mem_cons, not_or] at h
    rw [List.cons_append, cutLines, if_neg (Ne.symm h.1), ih h.2]
    rfl

/-- Any bytes are lines, one after the other, of which the last one may lack its line feed. -/
theorem line_induction {motive : List UInt8 → Prop} (nil : motive [])
    (last : ∀ line, 10 ∉ line → line ≠ [] → motive line)
    (line : ∀ line rest, 10 ∉ line → motive rest → motive (line ++ 10 :: rest))
    (bytes : List UInt8) : motive bytes := by
  induction bytes using delimited_induction 10 with
  | tail bytes hmem =>
    by_cases hne : bytes = []
    · exact hne ▸ nil
    · exact last bytes hmem hne
  | piece first rest hfirst ih => exact line first rest hfirst ih

theorem flatten_cutLines (bytes : List UInt8) : (cutLines bytes).flatten = bytes := by
  induction bytes using line_induction with
  | nil => rfl
  | last line h hne => simp [cutLines_of_not_mem h hne]
  | line line rest h ih => simp [cutLines_append h, ih]

theorem cutLines_eq_nil_iff {bytes : List UInt8} : cutLines bytes = [] ↔ bytes = [] := by
  constructor
  · intro h
    rw [← flatten_cutLines bytes, h, List.flatten_nil]
  · rintro rfl
    rfl

theorem cutLines_flatten_of_sublist {bytes : List UInt8} {lines : List (List UInt8)}
    (h : lines.Sublist (cutLines bytes)) : cutLines lines.flatten = lines := by
  induction bytes using line_induction generalizing lines with
  | nil =>
    rw [List.sublist_nil.mp h]
    rfl
  | last line hline hne =>
    rw [cutLines_of_not_mem hline hne] at h
    rcases List.sublist_singleton.mp h with rfl | rfl
    · rfl
    · simp [cutLines_of_not_mem hline hne]
  | line line rest hline ih =>
    rw [cutLines_append hline] at h
    cases h with
    | cons _ h => exact ih h
    | cons_cons _ h => simp [cutLines_append hline, ih h]

theorem ne_nil_of_mem_cutLines {bytes : List UInt8} (h : line ∈ cutLines bytes) : line ≠ [] := by
  induction bytes using line_induction with
  | nil => cases h
  | last first hfirst hne =>
    rw [cutLines_of_not_mem hfirst hne, List.mem_singleton] at h
    rw [h]
    exact hne
  | line first rest hfirst ih =>
    rw [cutLines_append hfirst, List.mem_cons] at h
    rcases h with rfl | h
    · simp
    · exact ih h

theorem withoutEnding_of_not_mem (h : 10 ∉ line) : withoutEnding line = line := by
  apply if_neg
  intro hlast
  exact h (List.mem_of_getLast? hlast)

theorem withoutEnding_append (line : List UInt8) :
    withoutEnding (line ++ [10]) = if line.getLast? = some 13 then line.dropLast else line := by
  simp [withoutEnding]

theorem firstLine_of_not_mem (h : 10 ∉ line) : firstLine line = (line, []) := by
  have hne : ∀ a ∈ line, decide (a ≠ 10) = true := by
    intro a ha
    exact decide_eq_true (ne_of_mem_of_not_mem ha h)
  rw [firstLine, List.takeWhile_eq_self_iff.mpr hne, List.dropWhile_eq_nil_iff.mpr hne]

theorem firstLine_append (h : 10 ∉ line) (rest : List UInt8) :
    firstLine (line ++ 10 :: rest) = (withoutEnding (line ++ [10]), rest) := by
  obtain ⟨htake, hdrop⟩ := takeWhile_dropWhile_of_not_mem h rest
  rw [withoutEnding_append]
  simp only [firstLine, htake, hdrop]

end Cutting

/-- Reading a line takes the next line, also when it is not well-formed text. -/
theorem Console.readLine_eq (c : Console) :
    c.readLine =
      match cutLines c.input with
      | [] => (.error .inputClosed, c)
      | line :: lines => (lineText line, { c with input := lines.flatten }) := by
  obtain ⟨bytes, sink⟩ := c
  have hdecode (line rest : List UInt8) (hne : bytes ≠ [])
      (hfirst : firstLine bytes = (withoutEnding line, rest)) :
      readLine ⟨bytes, sink⟩ = (lineText line, ⟨rest, sink⟩) := by
    have hfull : ¬ bytes.isEmpty = true := by
      simpa using hne
    simp only [readLine, if_neg hfull, hfirst, lineText]
    cases Utf8.decode (withoutEnding line) <;> rfl
  induction bytes using line_induction with
  | nil => rfl
  | last line h hne =>
    rw [cutLines_of_not_mem h hne]
    apply hdecode line [] hne
    rw [firstLine_of_not_mem h, withoutEnding_of_not_mem h]
  | line line rest h _ =>
    rw [cutLines_append h]
    dsimp only
    rw [flatten_cutLines]
    exact hdecode (line ++ [10]) rest (by simp) (firstLine_append h rest)

def typed (line : String) : List UInt8 :=
  Utf8.encode (line ++ "\n")

/-- Whether a text, typed as a line, is read as it is. -/
def IsLine (text : String) : Prop :=
  '\n' ∉ text.toList ∧ text.toList.getLast? ≠ some '\r'

theorem firstLine_typed {line : String} (h : IsLine line) (rest : List UInt8) :
    firstLine (typed line ++ rest) = (Utf8.encode line, rest) := by
  have hfeed : (10 : UInt8) ∉ Utf8.encode line := by
    rw [Utf8.mem_encode_iff (by decide)]
    exact h.1
  have hreturn : (Utf8.encode line).getLast? ≠ some 13 := by
    intro hlast
    exact h.2 (Utf8.getLast?_of_encode (by decide) hlast)
  have hbytes : typed line ++ rest = Utf8.encode line ++ 10 :: rest := by
    rw [typed, Utf8.encode_append, List.append_assoc]
    rfl
  rw [hbytes, firstLine_append hfeed, withoutEnding_append, if_neg hreturn]

theorem Console.readLine_typed {c : Console} {line : String} {rest : List UInt8} (h : IsLine line)
    (hc : c.input = typed line ++ rest) :
    c.readLine = (.ok line, { c with input := rest }) := by
  have hne : c.input.isEmpty = false := by
    have hfeed : Utf8.encode "\n" = [10] := rfl
    simp [hc, typed, hfeed]
  rw [readLine, hne, hc, firstLine_typed h]
  simp [Utf8.decode_encode]

namespace Utf8

theorem exists_encode_of_append_cons {b : UInt8} (hb : b.toNat < 0x80) {text : String}
    {before after : List UInt8} (h : encode text = before ++ b :: after) :
    ∃ left right, before = encode left ∧ after = encode right := by
  have hhead : ∀ c ∈ (b :: after).head?, c.toNat < 0x80 := by simpa using hb
  obtain ⟨left, last, -, hleft, hlast⟩ := exists_append_of_encode_eq hhead h
  have hchar : encode (String.ofList [Char.ofNat b.toNat]) = [b] := by
    rw [encode_ofList, List.flatMap_singleton]
    exact ((layout_utf8EncodeChar _).eq_singleton ((mem_utf8EncodeChar_iff hb).mpr rfl) hb).1
  have hstart : encode last = encode (String.ofList [Char.ofNat b.toNat]) ++ after := by
    rw [hlast, hchar]
    rfl
  obtain ⟨right, -, hright⟩ := exists_append_of_encode hstart
  exact ⟨left, right, hleft.symm, hright.symm⟩

theorem exists_encode_dropLast {text : String} (h : (encode text).getLast? = some 13) :
    ∃ shorter, (encode text).dropLast = encode shorter := by
  have hlast := getLast?_of_encode (by decide) h
  obtain ⟨cs, hcs⟩ := List.getLast?_eq_some_iff.mp hlast
  refine ⟨String.ofList cs, ?_⟩
  have hreturn : String.utf8EncodeChar (Char.ofNat (13 : UInt8).toNat) = [13] := rfl
  rw [encode, hcs, List.flatMap_append, List.flatMap_singleton, hreturn, List.dropLast_concat,
    encode_ofList]

end Utf8

theorem exists_lineText_eq_ok {text : String} {line : List UInt8}
    (h : line ∈ cutLines (Utf8.encode text)) : ∃ read, lineText line = .ok read := by
  have hdecode {line : List UInt8} {read : String} (hread : withoutEnding line = Utf8.encode read) :
      lineText line = .ok read := by
    rw [lineText, hread, Utf8.decode_encode]
  generalize hbytes : Utf8.encode text = bytes at h
  induction bytes using line_induction generalizing text with
  | nil => cases h
  | last last hlast hne =>
    rw [cutLines_of_not_mem hlast hne, List.mem_singleton] at h
    rw [h]
    exact ⟨text, hdecode (by rw [withoutEnding_of_not_mem hlast, hbytes])⟩
  | line first rest hfirst ih =>
    obtain ⟨left, right, rfl, rfl⟩ :=
      Utf8.exists_encode_of_append_cons (by decide) hbytes
    rw [cutLines_append hfirst, List.mem_cons] at h
    rcases h with rfl | h
    · by_cases hreturn : (Utf8.encode left).getLast? = some 13
      · obtain ⟨shorter, hshorter⟩ := Utf8.exists_encode_dropLast hreturn
        exact ⟨shorter, hdecode (by rw [withoutEnding_append, if_pos hreturn, hshorter])⟩
      · exact ⟨left, hdecode (by rw [withoutEnding_append, if_neg hreturn])⟩
    · exact ih rfl h

def Call.line? (call : Call) : Option (List UInt8) :=
  match call.primitive with
  | .read => (cutLines call.machine.console.input).head?
  | _ => none

theorem Call.line?_of_ne_read {call : Call} (h : call.primitive ≠ .read) : call.line? = none := by
  unfold line?
  split
  · rename_i hread
    exact absurd hread h
  · rfl

theorem Machine.console_answer (m : Machine) (v : Value) :
    (m.answer v).state.console = m.console := by
  rw [answer, Outcome.state_map]
  rfl

theorem Machine.console_performRead (m : Machine) :
    m.performRead.state.console = m.console.readLine.2 := by
  have hread : m.readLine.2.console = m.console.readLine.2 := rfl
  rw [← hread]
  unfold performRead
  split <;> rename_i h <;> rw [h]
  · exact console_answer _ _
  · rfl

/-- A property that a text held in memory has when it is entered, and that no token takes from an
activation. -/
structure Activation.Lasting (Q : Activation → Prop) : Prop where
  text : ∀ entry code, Q { entry, cursor := .ofSource (.ofText code) }
  token : ∀ (m : Machine) (a : Activation), Q a → Q (m.token a).2.1

namespace Progress

/-- All texts that are running have the property. -/
def Throughout (Q : Activation → Prop) (p : Progress) : Prop :=
  ∀ a ∈ p.calls, Q a

/-- All texts that are running are held in memory, and none is read from the line input. -/
def Private (p : Progress) : Prop :=
  ∀ a ∈ p.calls, a.shared = false

end Progress

namespace Machine

variable {m : Machine} {calls : List Activation} {Q : Activation → Prop}

theorem throughout_start {a : Activation} (ha : Q a) (h : ∀ b ∈ calls, Q b) :
    (m.start calls a).Throughout Q := by
  unfold start
  split
  · exact h
  · exact List.forall_mem_cons.mpr ⟨ha, h⟩

theorem throughout_proceed (hQ : Activation.Lasting Q) (h : ∀ b ∈ calls, Q b) (layer : Layer)
    (effect : Effect) : (proceed calls layer effect).Throughout Q := by
  cases effect with
  | settled outcome =>
    cases outcome with
    | done n => exact h
    | failed cause n => exact h
    | aborted fault n => exact List.forall_mem_nil _
  | enter code n => exact throughout_start (hQ.text _ code) h
  | pass code count n => exact throughout_start (hQ.text _ code) h

private theorem throughout_leave (hQ : Activation.Lasting Q) (h : ∀ b ∈ calls, Q b)
    (entry : Entry) : (m.leave calls entry).Throughout Q := by
  cases entry with
  | outer => exact h
  | call layer => exact h
  | pass layer code count => exact throughout_proceed hQ h layer _

theorem token_of_private {a : Activation} (h : a.shared = false) :
    m.token a = (a.cursor.token.1, { a with cursor := a.cursor.token.2 }, m) := by
  simp [token, h]

theorem shared_token (m : Machine) (a : Activation) : (m.token a).2.1.shared = a.shared := by
  unfold token
  split <;> rfl

end Machine

theorem Activation.lasting_private : Activation.Lasting fun a => a.shared = false where
  text _ _ := rfl
  token m a h := (m.shared_token a).trans h

namespace Progress

variable {p : Progress} {Q : Activation → Prop}

theorem Throughout.next (hQ : Activation.Lasting Q) (h : p.Throughout Q) :
    p.next.Throughout Q := by
  cases p with
  | halted v m => exact h
  | raising e m calls =>
    cases calls with
    | nil => exact List.forall_mem_nil _
    | cons a calls => exact (List.forall_mem_cons.mp h).2
  | running m calls =>
    cases calls with
    | nil => exact List.forall_mem_nil _
    | cons a calls =>
      obtain ⟨ha, hcalls⟩ := List.forall_mem_cons.mp h
      have hafter := hQ.token m a ha
      simp only [Progress.next, Machine.step]
      rcases htoken : m.token a with ⟨result, b, n⟩
      rw [htoken] at hafter
      have hall : ∀ c ∈ b :: calls, Q c := List.forall_mem_cons.mpr ⟨hafter, hcalls⟩
      cases result with
      | error cause => exact hall
      | ok t =>
        dsimp only
        split
        · exact Machine.throughout_leave hQ hcalls b.entry
        · exact Machine.throughout_proceed hQ hall _ _

theorem Private.next (h : p.Private) : p.next.Private :=
  Throughout.next Activation.lasting_private h

theorem Private.fetched (h : p.Private) : p.fetched = p.machine := by
  cases p with
  | halted v m => rfl
  | raising e m calls => rfl
  | running m calls =>
    cases calls with
    | nil => rfl
    | cons a calls =>
      rw [Progress.fetched, Machine.token_of_private (List.forall_mem_cons.mp h).1]
      rfl

/-- Behind its token, a step takes the line of its call, and nothing else. -/
theorem cutLines_input_fetched (p : Progress) :
    cutLines p.fetched.console.input =
      p.call?.toList.filterMap Call.line? ++ cutLines p.next.machine.console.input := by
  cases hcall : p.call? with
  | none =>
    rw [Option.toList_none, List.filterMap_nil, List.nil_append]
    exact (congrArg (fun supply => cutLines supply.1) (supply_next hcall)).symm
  | some call =>
    obtain ⟨hnext, hmachine⟩ := next_of_call? hcall
    have hsupply :=
      Machine.supply_proceed call.calls call.layer (call.primitive.perform call.machine)
    have hinput : p.next.machine.console.input =
        (call.primitive.perform call.machine).machine.console.input := by
      rw [hnext]
      exact congrArg Prod.fst hsupply
    rw [hinput, ← hmachine]
    by_cases hread : call.primitive = .read
    · have hperform : (call.primitive.perform call.machine).machine.console.input =
          call.machine.console.readLine.2.input := by
        rw [hread]
        exact congrArg Console.input call.machine.console_performRead
      rw [hperform, Console.readLine_eq]
      cases hlines : cutLines call.machine.console.input with
      | nil => simp [Call.line?, hread, hlines]
      | cons line lines =>
        have hsublist : lines.Sublist (cutLines call.machine.console.input) := by
          rw [hlines]
          exact List.sublist_cons_self line lines
        simp [Call.line?, hread, hlines, cutLines_flatten_of_sublist hsublist]
    · simp [Call.line?_of_ne_read hread, Machine.input_perform _ hread]

/-- The lines that a run finds are those that its calls take, in order, and those that it leaves. -/
theorem Private.cutLines_input_run (h : p.Private) (n : Nat) :
    cutLines p.machine.console.input =
      (p.callsIn n).filterMap Call.line? ++
        cutLines (Progress.next^[n] p).machine.console.input := by
  induction n generalizing p with
  | zero => rfl
  | succ n ih =>
    rw [← h.fetched, cutLines_input_fetched, ih h.next, callsIn, List.filterMap_append,
      List.append_assoc]
    rfl

theorem Private.input_run (h : p.Private) (n : Nat) :
    p.machine.console.input = ((p.callsIn n).filterMap Call.line?).flatten ++
      (Progress.next^[n] p).machine.console.input := by
  have hlines := congrArg List.flatten (h.cutLines_input_run n)
  rw [List.flatten_append, flatten_cutLines, flatten_cutLines] at hlines
  exact hlines

end Progress

end StackScript
