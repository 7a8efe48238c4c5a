import StackScript.Proofs.InputLines
/-!
# Reading the input line by line

The line input is cut after each line feed, and every reading of a line takes the next piece and
says what is in that piece alone (`Console.lines_read_in_order`).  A piece that is not well-formed
text costs its own reading and no other one.  Texts that are written as lines, each with either of
the two endings, are read back as they are.
-/

namespace StackScript

/-- The bytes are these pieces: each ends with its only line feed, except that the last one may lack
it and is then not empty. -/
inductive CutInLines : List UInt8 → List (List UInt8) → Prop
  | nil : CutInLines [] []
  | last {line : List UInt8} (hline : 10 ∉ line) (hne : line ≠ []) : CutInLines line [line]
  | line {line rest : List UInt8} {lines : List (List UInt8)} (hline : 10 ∉ line)
      (h : CutInLines rest lines) : CutInLines (line ++ 10 :: rest) ((line ++ [10]) :: lines)

theorem cutInLines_iff {bytes : List UInt8} {lines : List (List UInt8)} :
    CutInLines bytes lines ↔ cutLines bytes = lines := by
  constructor
  · intro h
    induction h with
    | nil => rfl
    | last hline hne => exact cutLines_of_not_mem hline hne
    | line hline _ ih => rw [cutLines_append hline, ih]
  · rintro rfl
    induction bytes using line_induction with
    | nil => exact .nil
    | last line hline hne =>
      rw [cutLines_of_not_mem hline hne]
      exact .last hline hne
    | line line rest hline ih =>
      rw [cutLines_append hline]
      exact .line hline ih

/-- What a piece of the input reads as, and what reading comes to when there is none. -/
inductive ReadsAs : Option (List UInt8) → Except Failure String → Prop
  | lineFeed {text : String} (hreturn : text.toList.getLast? ≠ some '\r') :
      ReadsAs (some (Utf8.encode text ++ [10])) (.ok text)
  | carriageReturn {text : String} : ReadsAs (some (Utf8.encode text ++ [13, 10])) (.ok text)
  /-- A last piece without a line feed keeps what it ends with. -/
  | unended {text : String} (hfeed : '\n' ∉ text.toList) :
      ReadsAs (some (Utf8.encode text)) (.ok text)
  | malformed {piece : List UInt8} (h : ∀ text, Utf8.encode text ≠ piece) :
      ReadsAs (some piece) (.error .malformedLine)
  | closed : ReadsAs none (.error .inputClosed)

namespace ReadsAs

variable {line : List UInt8}

private theorem getLast?_encode {text : String} (h : text.toList.getLast? = some '\r') :
    (Utf8.encode text).getLast? = some 13 := by
  obtain ⟨cs, hcs⟩ := List.getLast?_eq_some_iff.mp h
  have hreturn : String.utf8EncodeChar '\r' = [13] := rfl
  rw [Utf8.encode, hcs, List.flatMap_append, List.flatMap_singleton, hreturn, List.getLast?_concat]

private theorem not_encode_of_append {defect : Utf8.Defect} {b : UInt8} (hb : b.toNat < 0x80)
    (hdecode : Utf8.decode line = .error defect) (after : List UInt8) (text : String) :
    Utf8.encode text ≠ line ++ b :: after := by
  intro htext
  obtain ⟨left, right, rfl, -⟩ := Utf8.exists_encode_of_append_cons hb htext
  rw [Utf8.decode_encode] at hdecode
  cases hdecode

theorem of_not_mem (h : 10 ∉ line) : ReadsAs (some line) (lineText line) := by
  rw [lineText, withoutEnding_of_not_mem h]
  cases hdecode : Utf8.decode line with
  | ok text =>
    obtain rfl := Utf8.decode_eq_ok_iff.mp hdecode
    exact .unended ((not_congr (Utf8.mem_encode_iff (by decide))).mp h)
  | error defect =>
    refine .malformed fun text htext => ?_
    rw [← htext, Utf8.decode_encode] at hdecode
    cases hdecode

theorem of_lineFeed (line : List UInt8) : ReadsAs (some (line ++ [10])) (lineText (line ++ [10])) := by
  rw [lineText, withoutEnding_append]
  by_cases hlast : line.getLast? = some 13
  · rw [if_pos hlast]
    obtain ⟨body, rfl⟩ := List.getLast?_eq_some_iff.mp hlast
    rw [List.dropLast_concat, List.append_assoc]
    cases hdecode : Utf8.decode body with
    | ok text =>
      obtain rfl := Utf8.decode_eq_ok_iff.mp hdecode
      exact .carriageReturn
    | error defect => exact .malformed (not_encode_of_append (by decide) hdecode _)
  · rw [if_neg hlast]
    cases hdecode : Utf8.decode line with
    | ok text =>
      obtain rfl := Utf8.decode_eq_ok_iff.mp hdecode
      exact .lineFeed fun hreturn => hlast (getLast?_encode hreturn)
    | error defect => exact .malformed (not_encode_of_append (by decide) hdecode _)

end ReadsAs

def pieceText : Option (List UInt8) → Except Failure String
  | some line => lineText line
  | none => .error .inputClosed

theorem CutInLines.readsAs {bytes : List UInt8} {lines : List (List UInt8)}
    (h : CutInLines bytes lines) (i : Nat) : ReadsAs lines[i]? (pieceText lines[i]?) := by
  induction h generalizing i with
  | nil => exact .closed
  | last hline hne =>
    cases i with
    | zero => exact .of_not_mem hline
    | succ i => exact .closed
  | line hline _ ih =>
    cases i with
    | zero => exact .of_lineFeed _
    | succ i => exact ih i

/-- A text as it is written as a line, with a carriage return in front of its line feed or without
one. -/
def lineWith (line : String × Bool) : List UInt8 :=
  Utf8.encode line.1 ++ if line.2 then [13, 10] else [10]

theorem lineText_lineWith {line : String × Bool} (h : IsLine line.1) :
    lineText (lineWith line) = .ok line.1 := by
  have hplain : lineText (Utf8.encode line.1 ++ [10]) = .ok line.1 := by
    have hlast : (Utf8.encode line.1).getLast? ≠ some 13 := by
      intro hlast
      exact h.2 (Utf8.getLast?_of_encode (by decide) hlast)
    rw [lineText, withoutEnding_append, if_neg hlast, Utf8.decode_encode]
  have hreturn : lineText (Utf8.encode line.1 ++ [13] ++ [10]) = .ok line.1 := by
    rw [lineText, withoutEnding_append, List.getLast?_concat, if_pos rfl, List.dropLast_concat,
      Utf8.decode_encode]
  obtain ⟨text, withReturn⟩ := line
  cases withReturn with
  | false => exact hplain
  | true =>
    rw [List.append_assoc] at hreturn
    exact hreturn

theorem cutInLines_lineWith {lines : List (String × Bool)} (h : ∀ line ∈ lines, IsLine line.1) :
    CutInLines (lines.flatMap lineWith) (lines.map lineWith) := by
  induction lines with
  | nil => exact .nil
  | cons line lines ih =>
    obtain ⟨hline, hlines⟩ := List.forall_mem_cons.mp h
    have hrest := ih hlines
    obtain ⟨text, withReturn⟩ := line
    have hfeed : (10 : UInt8) ∉ Utf8.encode text := by
      rw [Utf8.mem_encode_iff (by decide)]
      exact hline.1
    rw [List.flatMap_cons, List.map_cons]
    cases withReturn with
    | false =>
      have hcut := CutInLines.line hfeed hrest
      simpa [lineWith] using hcut
    | true =>
      have hbody : (10 : UInt8) ∉ Utf8.encode text ++ [13] := by simp [hfeed]
      have hcut := CutInLines.line hbody hrest
      simpa [lineWith] using hcut

/-- What a console is asked for. -/
inductive ConsoleRequest where
  | read
  | write (text : String)
deriving DecidableEq

namespace Console

/-- What the readings among some requests come to, whatever comes of each request. -/
def linesRead (c : Console) : List ConsoleRequest → List (Except Failure String)
  | [] => []
  | .read :: requests => c.readLine.1 :: c.readLine.2.linesRead requests
  | .write text :: requests => (c.write text).2.linesRead requests

theorem readLine_fst (c : Console) : c.readLine.1 = pieceText (cutLines c.input)[0]? := by
  rw [readLine_eq]
  cases cutLines c.input <;> rfl

theorem cutLines_readLine (c : Console) :
    cutLines c.readLine.2.input = (cutLines c.input).tail := by
  rw [readLine_eq]
  cases hlines : cutLines c.input with
  | nil => exact hlines
  | cons line lines =>
    have hsublist : lines.Sublist (cutLines c.input) := by
      rw [hlines]
      exact List.sublist_cons_self line lines
    exact cutLines_flatten_of_sublist hsublist

theorem length_linesRead (c : Console) (requests : List ConsoleRequest) :
    (c.linesRead requests).length = requests.count .read := by
  induction requests generalizing c with
  | nil => rfl
  | cons request requests ih =>
    cases request with
    | read => rw [linesRead, List.length_cons, ih, List.count_cons_self]
    | write text => rw [linesRead, ih, List.count_cons_of_ne (by simp)]

theorem getElem?_linesRead {c : Console} {requests : List ConsoleRequest} {i : Nat}
    {result : Except Failure String} (h : (c.linesRead requests)[i]? = some result) :
    result = pieceText (cutLines c.input)[i]? := by
  induction requests generalizing c i with
  | nil => cases h
  | cons request requests ih =>
    cases request with
    | read =>
      cases i with
      | zero =>
        rw [← readLine_fst]
        exact (Option.some.inj h).symm
      | succ i =>
        have hlater := ih (c := c.readLine.2) h
        rwa [cutLines_readLine, List.getElem?_tail] at hlater
    | write text => exact ih (c := (c.write text).2) h

/-- Let lines be read from a console, with any texts written in between.  Each reading takes the
next piece of the input and reads as that piece does, whatever the others came to, and behind the
last piece every reading finds the input closed.  So lines without a line feed in them and without a
carriage return at their end, each written with either ending, are read back. -/
theorem lines_read_in_order (c : Console) :
    ∃ pieces, CutInLines c.input pieces ∧ ∀ requests : List ConsoleRequest,
      (c.linesRead requests).length = requests.count .read ∧
      (∀ (i : Nat) (result : Except Failure String), (c.linesRead requests)[i]? = some result →
        ReadsAs pieces[i]? result) ∧
      ∀ lines : List (String × Bool), (∀ line ∈ lines, IsLine line.1) →
        c.input = lines.flatMap lineWith →
        ∀ (i : Nat) (result : Except Failure String), (c.linesRead requests)[i]? = some result →
          result = match lines[i]? with
            | some line => .ok line.1
            | none => .error .inputClosed := by
  have hcut : CutInLines c.input (cutLines c.input) := cutInLines_iff.mpr rfl
  refine ⟨cutLines c.input, hcut, fun requests => ⟨c.length_linesRead requests, ?_, ?_⟩⟩
  · intro i result h
    rw [getElem?_linesRead h]
    exact hcut.readsAs i
  · intro lines hlines hinput i result h
    rw [getElem?_linesRead h, hinput, cutInLines_iff.mp (cutInLines_lineWith hlines),
      List.getElem?_map]
    cases hline : lines[i]? with
    | none => rfl
    | some line => exact lineText_lineWith (hlines line (List.mem_of_getElem? hline))

/-- Two carriage returns in front of a line feed, a line that is not text, an empty line, and a last
line that ends with a carriage return; and two lines with different endings, which are read back. -/
theorem damaged_line_among_others :
    let damaged : Console := { input := [97, 13, 13, 10, 255, 10, 10, 98, 13] }
    let pieces := [[97, 13, 13, 10], [255, 10], [10], [98, 13]]
    let lines := [("a", true), ("b", false)]
    let written : Console := { input := lines.flatMap lineWith }
    (CutInLines damaged.input pieces ∧
      damaged.linesRead [.read, .write "?", .read, .read, .read, .read] =
        [.ok "a\r", .error .malformedLine, .ok "", .ok "b\r", .error .inputClosed] ∧
      ReadsAs pieces[0]? (.ok "a\r") ∧ ReadsAs pieces[1]? (.error .malformedLine) ∧
      ReadsAs pieces[4]? (.error .inputClosed)) ∧
    (∀ line ∈ lines, IsLine line.1) ∧ (written.linesRead [.read, .read])[1]? = some (.ok "b") := by
  intro damaged pieces lines written
  have hread : damaged.linesRead [.read, .write "?", .read, .read, .read, .read] =
      [.ok "a\r", .error .malformedLine, .ok "", .ok "b\r", .error .inputClosed] := by
    decide
  have hlines : ∀ line ∈ lines, IsLine line.1 := by
    simp only [lines, IsLine]
    decide
  obtain ⟨cut, hcut, hdamaged⟩ := lines_read_in_order damaged
  obtain rfl : pieces = cut := cutInLines_iff.mp hcut
  obtain ⟨-, hpieces, -⟩ := hdamaged [.read, .write "?", .read, .read, .read, .read]
  rw [hread] at hpieces
  refine ⟨⟨hcut, hread, hpieces 0 _ rfl, hpieces 1 _ rfl, hpieces 4 _ rfl⟩, hlines, ?_⟩
  obtain ⟨_, -, hwritten⟩ := lines_read_in_order written
  obtain ⟨hlength, -, hback⟩ := hwritten [.read, .read]
  have hlt : 1 < (written.linesRead [.read, .read]).length := hlength ▸ Nat.lt_succ_self 1
  rw [List.getElem?_eq_getElem hlt]
  exact congrArg some (hback lines hlines rfl 1 _ (List.getElem?_eq_getElem hlt))

end Console

end StackScript
