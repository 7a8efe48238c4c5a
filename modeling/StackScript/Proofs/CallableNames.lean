import StackScript.Proofs.QuotedRun
import StackScript.Proofs.StandardWords
/-!
# Names that can be called

Any text can be given to a word as its name, but a source calls only what reads as a call: a text
that begins with a byte that begins a call, and has no blank in it.  `Callable` states this, and
`Cursor.callable_of_token` and `Callable.tokens_eq` are the two directions of it, also for sources
that are no UTF-8.  A word with another name is never run: in no run of any source does an
activation or an error have a layer with such a name (`Progress.CallableLayers.iterate`).
-/

namespace StackScript

/-- The name begins with a byte that begins a call, and has no blank in it. -/
def Callable (name : String) : Prop :=
  (∃ b rest, Utf8.encode name = b :: rest ∧ 33 ≤ b ∧ b ≤ 126 ∧
    b ∉ [Mark.openBracket, Mark.closeBracket, Mark.openParenthesis, Mark.quote, Mark.star]) ∧
  ∀ c ∈ name.toList, c ∉ [' ', '\t', '\n']

namespace Utf8

theorem utf8EncodeChar_ofNat {b : UInt8} (hb : b.toNat < 0x80) :
    String.utf8EncodeChar (Char.ofNat b.toNat) = [b] :=
  ((layout_utf8EncodeChar _).eq_singleton ((mem_utf8EncodeChar_iff hb).mpr rfl) hb).1

theorem encode_decodeLossy_cons {b : UInt8} (hb : b.toNat < 0x80) (bytes : List UInt8) :
    encode (decodeLossy (b :: bytes)) = b :: encode (decodeLossy bytes) := by
  rw [decodeLossy, decodeLossy, decodeLossyFrom_of_lt hb, encode_ofList, encode_ofList,
    List.flatMap_cons, utf8EncodeChar_ofNat hb]
  rfl

/-- However ill-formed some bytes are, they have the characters below 128 of the text that they are
read as. -/
theorem mem_decodeLossy_iff {b : UInt8} (hb : b.toNat < 0x80) {bytes : List UInt8} :
    Char.ofNat b.toNat ∈ (decodeLossy bytes).toList ↔ b ∈ bytes := by
  have hchar : (Char.ofNat b.toNat).toNat < 0x80 := by
    have hlayout := layout_utf8EncodeChar (Char.ofNat b.toNat)
    rw [utf8EncodeChar_ofNat hb] at hlayout
    rwa [← (hlayout.eq_singleton (List.mem_singleton_self b) hb).2]
  have hfilter := congrArg (Char.ofNat b.toNat ∈ ·) (filter_decodeLossyFrom bytes)
  simp only [List.mem_filter, hchar, decide_true, and_true, eq_iff_iff,
    List.mem_map_of_injective injective_ofNat_toNat, hb] at hfilter
  rw [decodeLossy, String.toList_ofList]
  exact hfilter

end Utf8

private theorem isBlank_iff_of_mem_iff {bytes : List UInt8} {text : String}
    (hmem : ∀ b : UInt8, b.toNat < 0x80 → (Char.ofNat b.toNat ∈ text.toList ↔ b ∈ bytes)) :
    (∀ b ∈ bytes, isBlank b = false) ↔ ∀ c ∈ text.toList, c ∉ [' ', '\t', '\n'] := by
  have hspace : ' ' ∈ text.toList ↔ 32 ∈ bytes := hmem 32 (by decide)
  have htab : '\t' ∈ text.toList ↔ 9 ∈ bytes := hmem 9 (by decide)
  have hline : '\n' ∈ text.toList ↔ 10 ∈ bytes := hmem 10 (by decide)
  constructor
  · intro h c hc hblank
    simp only [List.mem_cons, List.not_mem_nil, or_false] at hblank
    rcases hblank with rfl | rfl | rfl
    · exact absurd (h _ (hspace.mp hc)) (by decide)
    · exact absurd (h _ (htab.mp hc)) (by decide)
    · exact absurd (h _ (hline.mp hc)) (by decide)
  · intro h b hb
    by_contra hblank
    simp only [isBlank, Bool.not_eq_false, Bool.or_eq_true, decide_eq_true_eq] at hblank
    rcases hblank with (rfl | rfl) | rfl
    · exact h ' ' (hspace.mpr hb) (by simp)
    · exact h '\t' (htab.mpr hb) (by simp)
    · exact h '\n' (hline.mpr hb) (by simp)

theorem Item.callable {after bytes : List UInt8} {name : String}
    (h : Item after bytes (.call name)) : Callable name := by
  cases h with
  | @call b word hlow hhigh hmark hword _ =>
    have hb : b.toNat < 0x80 := by
      have hle : b.toNat ≤ 126 := hhigh
      omega
    have hvisible : isBlank b = false := by
      simp only [isBlank, Bool.or_eq_false_iff, decide_eq_false_iff_not]
      refine ⟨⟨?_, ?_⟩, ?_⟩ <;> rintro rfl <;> simp at hlow
    have hbytes : ∀ c ∈ b :: word, isBlank c = false := List.forall_mem_cons.mpr ⟨hvisible, hword⟩
    exact ⟨⟨b, _, Utf8.encode_decodeLossy_cons hb word, hlow, hhigh, hmark⟩,
      (isBlank_iff_of_mem_iff fun _ hc => Utf8.mem_decodeLossy_iff hc).mp hbytes⟩

/-- Whatever source it is read from, the name of a call is callable. -/
theorem Cursor.callable_of_token {c after : Cursor} {t : Token} {name : String}
    (h : c.token = (.ok t, after)) (hform : t.form = .call name) : Callable name := by
  have hlexeme := (skip_of_token h).2
  have hbytes : c.pending.dropWhile isBlank ≠ [] := by
    intro hnil
    rw [dropWhile_isBlank_eq_nil_iff h, hform] at hnil
    cases hnil
  have hitem := item_of_cut hbytes hlexeme
  rw [hform] at hitem
  exact hitem.callable

theorem Callable.item {name : String} (h : Callable name) {after : List UInt8}
    (hafter : EndsWord after) : Item after (Utf8.encode name) (.call name) := by
  obtain ⟨⟨b, rest, hbytes, hlow, hhigh, hmark⟩, hblank⟩ := h
  have hword : ∀ c ∈ rest, isBlank c = false := by
    intro c hc
    have hmem (d : UInt8) (hd : d.toNat < 0x80) :
        Char.ofNat d.toNat ∈ name.toList ↔ d ∈ Utf8.encode name :=
      (Utf8.mem_encode_iff hd).symm
    exact (isBlank_iff_of_mem_iff hmem).mpr hblank c (hbytes ▸ List.mem_cons_of_mem b hc)
  have hcall : Item after (b :: rest) _ := .call hlow hhigh hmark hword hafter
  rwa [← hbytes, Utf8.decodeLossy_encode] at hcall

theorem Callable.tokens_eq {name : String} (h : Callable name) :
    (Cursor.ofSource (.ofText name)).tokens =
      ([⟨.start, .call name⟩, ⟨.behind (Utf8.encode name), .endOfInput⟩], none) := by
  have hcuts : Cuts (Utf8.encode name) [.item (Utf8.encode name) (.call name)] := by
    have hitems := Cuts.item (h.item (by simp [EndsWord])) .nil
    rwa [List.append_nil] at hitems
  have hstart : (Cursor.ofSource (.ofText name)).location = .behind [] := rfl
  exact (Cursor.tokens_eq_iff_cuts rfl hstart _).mpr ⟨_, hcuts, rfl⟩

def layersOf (calls : List Activation) : List Layer :=
  calls.filterMap (·.entry.layer?)

/-- The calls that a run is inside of or has failed in. -/
def Progress.layers : Progress → List Layer
  | .running _ calls => layersOf calls
  | .raising e _ calls => e.layers ++ layersOf calls
  | .halted (.failed e) _ => e.layers
  | .halted _ _ => []

def Layer.Callable (layer : Layer) : Prop :=
  ∀ name, layer.word = some name → StackScript.Callable name

namespace Machine

variable {m : Machine} {calls : List Activation} {layer l : Layer}

theorem layers_enclose (e : Error) (entry : Entry) :
    (entry.enclose e).layers = entry.layer?.toList ++ e.layers := by
  cases entry <;> rfl

theorem layersOf_cons (a : Activation) (calls : List Activation) :
    layersOf (a :: calls) = a.entry.layer?.toList ++ layersOf calls := by
  cases h : a.entry.layer? <;> simp [layersOf, h]

theorem mem_layers_start {a : Activation} (h : l ∈ (m.start calls a).layers) :
    l ∈ a.entry.layer?.toList ∨ l ∈ layersOf calls := by
  unfold start at h
  split at h
  · rw [Progress.layers, layers_enclose] at h
    simpa [Error.ofCause] using h
  · rw [Progress.layers, layersOf_cons] at h
    exact List.mem_append.mp h

theorem mem_layers_proceed {effect : Effect} (h : l ∈ (proceed calls layer effect).layers) :
    l = layer ∨ l ∈ layersOf calls := by
  cases effect with
  | settled outcome =>
    cases outcome with
    | done m => exact .inr h
    | failed cause m =>
      simpa [proceed, Progress.layers, Error.within, Error.ofCause] using h
    | aborted fault m => cases h
  | enter code m => simpa [Entry.layer?] using mem_layers_start h
  | pass code count m => simpa [Entry.layer?] using mem_layers_start h

theorem mem_layers_leave {entry : Entry} (h : l ∈ (m.leave calls entry).layers) :
    l ∈ entry.layer?.toList ∨ l ∈ layersOf calls := by
  cases entry with
  | outer => exact .inr h
  | call layer => exact .inr h
  | pass layer code count => simpa [Entry.layer?] using mem_layers_proceed h

theorem callable_meaning {c after : Cursor} {t : Token} (h : c.token = (.ok t, after)) :
    (m.meaning t).1.Callable := by
  intro name hname
  rcases m.meaning_cases t with ⟨called, w, hform, -, hmeaning⟩ | ⟨outcome, hmeaning⟩
  · rw [hmeaning, Option.some.injEq] at hname
    exact Cursor.callable_of_token h (hname ▸ hform)
  · rw [hmeaning] at hname
    cases hname

theorem callable_step (hcalls : ∀ l ∈ layersOf calls, l.Callable)
    (h : l ∈ (m.step calls).layers) : l.Callable := by
  cases calls with
  | nil => cases h
  | cons a calls =>
    have hentry := entry_token m a
    rw [step] at h
    rcases htoken : m.token a with ⟨result, b, n⟩
    rw [htoken] at h hentry
    have hbelow : layersOf (b :: calls) = layersOf (a :: calls) := by
      rw [layersOf_cons, layersOf_cons, hentry]
    cases result with
    | error cause => exact hcalls l (hbelow ▸ h)
    | ok t =>
      obtain ⟨c, -, hread⟩ := m.exists_cursor_token a
      rw [htoken] at hread
      dsimp only at h
      split at h
      · apply hcalls
        rw [← hbelow, layersOf_cons]
        exact List.mem_append.mpr (mem_layers_leave h)
      · rcases mem_layers_proceed h with rfl | hmem
        · exact callable_meaning hread
        · exact hcalls l (hbelow ▸ hmem)

end Machine

namespace Progress

/-- Every name in the layers of a run can be called. -/
def CallableLayers (p : Progress) : Prop :=
  ∀ l ∈ p.layers, l.Callable

theorem CallableLayers.next {p : Progress} (h : p.CallableLayers) : p.next.CallableLayers := by
  intro l hl
  cases p with
  | running m calls => exact Machine.callable_step h hl
  | raising e m calls =>
    apply h
    cases calls with
    | nil => exact List.mem_append_left _ hl
    | cons a calls =>
      rw [layers, Machine.layersOf_cons]
      simp only [Progress.next, Machine.raise, layers, Machine.layers_enclose, List.mem_append] at hl ⊢
      tauto
  | halted v m => exact h l hl

theorem CallableLayers.iterate {p : Progress} (h : p.CallableLayers) (n : Nat) :
    (Progress.next^[n] p).CallableLayers := by
  induction n generalizing p with
  | zero => exact h
  | succ n ih => exact ih h.next

theorem callableLayers_start (m : Machine) {a : Activation} (ha : a.entry = .outer) :
    (m.start [] a).CallableLayers := by
  intro l hl
  have hmem := Machine.mem_layers_start hl
  simp [ha, Entry.layer?, layersOf] at hmem

end Progress

theorem Cursor.exists_token_of_mem {t : Token} {c : Cursor} (h : t ∈ c.tokens.1) :
    ∃ d after : Cursor, d.token = (.ok t, after) := by
  induction c using Cursor.token_induction with
  | step c ih =>
    rcases hread : c.token with ⟨result, after⟩
    cases result with
    | error cause =>
      rw [Cursor.tokens_of_error hread] at h
      cases h
    | ok u =>
      by_cases hend : u.form = .endOfInput
      · rw [Cursor.tokens_of_end hread hend, List.mem_singleton] at h
        exact ⟨c, after, h ▸ hread⟩
      · rw [Cursor.tokens_of_token hread hend] at h
        rcases List.mem_cons.mp h with rfl | hmem
        · exact ⟨c, after, hread⟩
        · exact ih _ _ hread hend hmem

theorem exists_call_iff_callable (name : String) :
    (∃ source l, (⟨l, .call name⟩ : Token) ∈ (Cursor.ofSource source).tokens.1) ↔
      Callable name := by
  constructor
  · intro ⟨source, l, hmem⟩
    obtain ⟨c, after, hread⟩ := Cursor.exists_token_of_mem hmem
    exact Cursor.callable_of_token hread rfl
  · intro h
    exact ⟨.ofText name, .start, by simp [h.tokens_eq]⟩

namespace Machine

def given (name body : String) (m : Machine) : Machine :=
  m.withStack ⟨.quotation body :: .text name :: m.stack.values, m.stack.room - 2⟩

def knowing (w : Word) (m : Machine) : Machine :=
  { m with dictionary := { words := w :: m.dictionary.words } }

variable {m : Machine} {name body : String}

theorem exists_push_given (hroom : 2 ≤ m.stack.room) :
    ∃ n, m.accept (.push (.text name)) = .halted .done n ∧
      n.accept (.push (.quotation body)) = .halted .done (m.given name body) := by
  obtain ⟨room, hroom⟩ := Nat.exists_eq_add_of_le' hroom
  have hstack : m.stack = ⟨m.stack.values, room + 1 + 1⟩ := by rw [← hroom]
  let n := m.withStack ⟨.text name :: m.stack.values, room + 1⟩
  have hstack' : n.stack = ⟨.text name :: m.stack.values, room + 1⟩ := rfl
  refine ⟨n, ?_, ?_⟩
  · rw [accept, answer_of_stack hstack]
    rfl
  · rw [accept, answer_of_stack hstack', given, hroom]
    rfl

theorem sourceEnds_define (hm : m.depth < m.maxNesting) (hroom : 2 ≤ m.stack.room)
    (hdefine : m.dictionary.action? "define" = some (.primitive .define))
    (hnew : m.dictionary.find? name = none) :
    (m.given name body).SourceEnds (.ofText "define") .done
      (m.knowing (.scripted name body)) := by
  have htokens : (Cursor.ofSource (.ofText "define")).tokens =
      ([⟨⟨1, 1⟩, .call "define"⟩] ++ [⟨⟨1, 7⟩, .endOfInput⟩], none) := rfl
  have hadd : m.dictionary.define (.scripted name body) = _ :=
    Dictionary.define_of_find?_eq_none hnew
  have hperform := perform_define (m := (m.given name body).opened) rfl hadd
  have hroom' : m.stack.room - 2 + 2 = m.stack.room := Nat.sub_add_cancel hroom
  rw [hroom'] at hperform
  exact sourceEnds_of_obeys (m := m.given name body) hm htokens (.call hdefine hperform .nil)

theorem sourceEnds_callable_iff (h : Callable name) (hm : m.depth < m.maxNesting)
    (hname : m.dictionary.action? name = some (.script body)) {v : Verdict} {n : Machine} :
    m.SourceEnds (.ofText name) v n ↔
      ∃ w k, m.opened.SourceEnds (.ofText body) w k ∧ v = w.within ⟨.start, some name⟩ ∧
        n = if w.returns then k.closed else k := by
  have hmeaning : m.opened.meaning ⟨.start, .call name⟩ =
      (⟨.start, some name⟩, .enter body m.opened) :=
    meaning_call (m := m.opened) hname
  exact sourceEnds_iff_of_enter hm h.tokens_eq .nil hmeaning

end Machine

open Progress Machine in
/-- The names of the calls in sources are the callable names, and such a name is itself a source
that calls it.  So once a name without a meaning has been given to a quotation, the name as a source
runs the quotation, if it is callable.  By a name that is not callable nothing is run, nor blamed
for an error, in any run of any source. -/
theorem callable_names (name : String) :
    ((∃ source l, (⟨l, .call name⟩ : Token) ∈ (Cursor.ofSource source).tokens.1) ↔
      Callable name) ∧
    (Callable name → (Source.ofText name).tokens =
      .ok [⟨.start, .call name⟩, ⟨.behind (Utf8.encode name), .endOfInput⟩]) ∧
    (∀ (s : Settings) (v : Verdict) (m : Machine) (body : String),
      (Progress.halted v m).Reachable s → v.returns → 2 ≤ m.stack.room →
      m.dictionary.find? name = none →
      let known := m.knowing (.scripted name body)
      (∃ n, m.accept (.push (.text name)) = .halted .done n ∧
        n.accept (.push (.quotation body)) = .halted .done (m.given name body)) ∧
      (m.given name body).SourceEnds (.ofText "define") .done known ∧
      (Callable name → ∀ v n, known.SourceEnds (.ofText name) v n ↔
        ∃ w k, known.opened.SourceEnds (.ofText body) w k ∧
          v = w.within ⟨.start, some name⟩ ∧ n = if w.returns then k.closed else k)) ∧
    (¬ Callable name → ∀ (m : Machine) (a : Activation), a.entry = .outer → ∀ k,
      ∀ layer ∈ (next^[k] (m.start [] a)).layers, layer.word ≠ some name) := by
  refine ⟨exists_call_iff_callable name, ?_, ?_, ?_⟩
  · intro h
    exact Source.tokens_eq_ok_iff.mpr h.tokens_eq
  · intro s v m body hm hv hroom hnew known
    have hdefine := hm.action?_of_natives (show Library.natives.action? "define" = _ by rfl)
    have hdepth : m.depth = 0 := hm.nested hv
    have hlimit : m.maxNesting = (bare s).maxNesting := hm.later_bare.follows.maxNesting
    have hpos := maxNesting_bare_pos s
    have hlevel : m.depth < m.maxNesting := by omega
    refine ⟨exists_push_given hroom, sourceEnds_define hlevel hroom hdefine hnew, ?_⟩
    intro h v n
    have hname : known.dictionary.action? name = some (.script body) := by
      simp [known, knowing, Dictionary.action?, Dictionary.find?, Word.scripted]
    exact sourceEnds_callable_iff (m := known) h hlevel hname
  · intro h m a ha k layer hlayer hname
    exact h ((callableLayers_start m ha).iterate k layer hlayer name hname)

open Progress Machine in
/-- A name with a letter beyond ASCII is called by itself.  A name of two words is called by nothing,
not even where it is known. -/
theorem callable_and_uncallable_name :
    let m := Machine.bare { capacity := 2 }
    let known := m.knowing (.scripted "prêt" "7")
    known.SourceEnds (.ofText "prêt") .done (known.withStack ⟨[.integer 7], 1⟩) ∧
      ∀ k, ∀ layer ∈ (next^[k] ((m.knowing (.scripted "to go" "7")).accept
        (.execute (.ofText "to go")))).layers, layer.word ≠ some "to go" := by
  intro m known
  have hm : (Progress.halted .done m).Reachable { capacity := 2 } :=
    ⟨m, .bare, Relation.ReflTransGen.refl⟩
  have hcallable : Callable "prêt" :=
    ⟨⟨112, _, rfl, by decide, by decide, by decide⟩, by simp⟩
  have huncallable : ¬ Callable "to go" := by
    intro h
    exact h.2 ' ' (by decide) (by decide)
  obtain ⟨-, -, hdefined, -⟩ := callable_names "prêt"
  obtain ⟨-, -, -, hnever⟩ := callable_names "to go"
  obtain ⟨-, -, hcalls⟩ := hdefined _ .done m "7" hm rfl (by decide) (by decide)
  refine ⟨?_, hnever huncallable _ _ rfl⟩
  have htokens : (Cursor.ofSource (.ofText "7")).tokens =
      ([⟨⟨1, 1⟩, .call "7"⟩] ++ [⟨⟨1, 2⟩, .endOfInput⟩], none) := rfl
  have hseven : known.opened.SourceEnds (.ofText "7") .done
      (known.opened.withStack ⟨[.integer 7], 1⟩) :=
    sourceEnds_of_obeys (n := known.opened.opened.withStack ⟨[.integer 7], 1⟩) (by decide) htokens
      (.number (by decide) rfl rfl .nil)
  exact (hcalls hcallable _ _).mpr ⟨.done, _, hseven, rfl, rfl⟩

end StackScript
