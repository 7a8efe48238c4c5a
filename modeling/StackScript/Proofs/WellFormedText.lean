import Mathlib.Data.List.Basic
import Mathlib.Tactic.SplitIfs
import StackScript.Text.Utf8
/-!
# Well-formed texts

Decoding is the inverse of encoding.  A first piece is a character exactly when the bytes start with
the bytes of that character (`piece_eq_char_iff`), so well-formed bytes are the bytes of texts, each
of one text only (`decode_eq_ok_iff`), and nothing in them needs a replacement
(`decodeLossy_encode`).  A replacement never takes the place of a byte below 128
(`filter_decodeLossyFrom`).
-/

namespace StackScript.Utf8

/-- The bytes that carry the code point `v`: the first byte tells their number and holds the highest
bits of `v`, and each of the others holds six more. -/
inductive Layout (v : Nat) : List UInt8 → Prop
  | one {b₀ : UInt8} (hv : v < 0x80) (h₀ : b₀.toNat = v) : Layout v [b₀]
  | two {b₀ b₁ : UInt8} (hv : 0x80 ≤ v ∧ v < 0x800) (h₀ : b₀.toNat = v / 64 + 0xC0)
      (h₁ : b₁.toNat = v % 64 + 0x80) : Layout v [b₀, b₁]
  | three {b₀ b₁ b₂ : UInt8} (hv : 0x800 ≤ v ∧ v < 0xD800 ∨ 0xE000 ≤ v ∧ v < 0x10000)
      (h₀ : b₀.toNat = v / 4096 + 0xE0) (h₁ : b₁.toNat = v / 64 % 64 + 0x80)
      (h₂ : b₂.toNat = v % 64 + 0x80) : Layout v [b₀, b₁, b₂]
  | four {b₀ b₁ b₂ b₃ : UInt8} (hv : 0x10000 ≤ v ∧ v < 0x110000)
      (h₀ : b₀.toNat = v / 262144 + 0xF0) (h₁ : b₁.toNat = v / 4096 % 64 + 0x80)
      (h₂ : b₂.toNat = v / 64 % 64 + 0x80) (h₃ : b₃.toNat = v % 64 + 0x80) :
      Layout v [b₀, b₁, b₂, b₃]

theorem layout_utf8EncodeChar (c : Char) : Layout c.toNat (String.utf8EncodeChar c) := by
  have hvalid : c.toNat < 0xD800 ∨ 0xDFFF < c.toNat ∧ c.toNat < 0x110000 := c.valid
  have hval : c.val.toNat = c.toNat := rfl
  unfold String.utf8EncodeChar
  simp only [hval]
  split
  · exact .one (by omega) (by simp; omega)
  · split
    · exact .two (by omega) (by simp; omega) (by simp; omega)
    · split
      · exact .three (by omega) (by simp; omega) (by simp; omega) (by simp; omega)
      · exact .four (by omega) (by simp; omega) (by simp; omega) (by simp; omega) (by simp; omega)

theorem Layout.unique {v : Nat} {bytes bytes' : List UInt8} (h : Layout v bytes)
    (h' : Layout v bytes') : bytes = bytes' := by
  cases h <;> cases h' <;>
    first
    | omega
    | simp only [List.cons.injEq, ← UInt8.toNat_inj, and_true]; omega

private theorem announced_eq (b : UInt8) :
    announced b =
      if b.toNat ≤ 0x7F then some (0, 0x80, 0xBF)
      else if 0xC2 ≤ b.toNat ∧ b.toNat ≤ 0xDF then some (1, 0x80, 0xBF)
      else if b.toNat = 0xE0 then some (2, 0xA0, 0xBF)
      else if b.toNat = 0xED then some (2, 0x80, 0x9F)
      else if 0xE1 ≤ b.toNat ∧ b.toNat ≤ 0xEF then some (2, 0x80, 0xBF)
      else if b.toNat = 0xF0 then some (3, 0x90, 0xBF)
      else if b.toNat = 0xF4 then some (3, 0x80, 0x8F)
      else if 0xF1 ≤ b.toNat ∧ b.toNat ≤ 0xF3 then some (3, 0x80, 0xBF)
      else none := by
  simp only [announced, UInt8.le_iff_toNat_le, ← UInt8.toNat_inj, UInt8.reduceToNat,
    Bool.and_eq_true, decide_eq_true_eq]

private theorem isContinuation_iff {b : UInt8} :
    isContinuation b = true ↔ 0x80 ≤ b.toNat ∧ b.toNat ≤ 0xBF := by
  simp only [isContinuation, UInt8.le_iff_toNat_le, UInt8.reduceToNat, Bool.and_eq_true,
    decide_eq_true_eq]

/-- The number that continuation bytes add up to, behind the bits read before them. -/
def gather (value : Nat) (tail : List UInt8) : Nat :=
  tail.foldl (fun value b => value * 64 + (b.toNat - 0x80)) value

private theorem gather_nil (value : Nat) : gather value [] = value := rfl

private theorem gather_cons (value : Nat) (b : UInt8) (tail : List UInt8) :
    gather value (b :: tail) = gather (value * 64 + (b.toNat - 0x80)) tail := by
  simp only [gather, List.foldl_cons]

theorem continuation_eq_char_iff {value size more n : Nat} {bytes : List UInt8} {c : Char} :
    continuation value size more bytes = .char c n ↔
      ∃ tail after, bytes = tail ++ after ∧ tail.length = more ∧ n = size + more ∧
        (∀ b ∈ tail, isContinuation b = true) ∧ c = Char.ofNat (gather value tail) := by
  induction more generalizing value size bytes with
  | zero =>
    simp only [continuation, Piece.char.injEq, List.length_eq_zero_iff]
    constructor
    · rintro ⟨rfl, rfl⟩
      exact ⟨[], bytes, rfl, rfl, rfl, by simp, rfl⟩
    · rintro ⟨tail, after, hbytes, rfl, hn, hall, rfl⟩
      exact ⟨rfl, hn.symm⟩
  | succ more ih =>
    cases bytes with
    | nil =>
      simp only [continuation, reduceCtorEq, false_iff]
      rintro ⟨tail, after, hbytes, hlength, -⟩
      obtain ⟨rfl, rfl⟩ := List.append_eq_nil_iff.mp hbytes.symm
      cases hlength
    | cons b rest =>
      by_cases hb : isContinuation b = true
      · simp only [continuation, hb, if_true, ih]
        constructor
        · rintro ⟨tail, after, rfl, rfl, rfl, hall, rfl⟩
          refine ⟨b :: tail, after, rfl, rfl, Nat.succ_add_eq_add_succ size _, ?_,
            congrArg Char.ofNat (gather_cons value b tail).symm⟩
          simpa using ⟨hb, hall⟩
        · rintro ⟨tail, after, hbytes, hlength, rfl, hall, rfl⟩
          cases tail with
          | nil => cases hlength
          | cons a tail =>
            obtain ⟨rfl, rfl⟩ := List.cons.inj hbytes
            refine ⟨tail, after, rfl, Nat.succ.inj hlength, ?_, ?_,
              congrArg Char.ofNat (gather_cons value b tail)⟩
            · exact (Nat.succ_add_eq_add_succ size _).symm
            · exact fun d hd => hall d (List.mem_cons_of_mem _ hd)
      · simp only [continuation, hb, if_false, reduceCtorEq, false_iff]
        rintro ⟨tail, after, hbytes, hlength, -, hall, -⟩
        cases tail with
        | nil => cases hlength
        | cons a tail =>
          obtain ⟨rfl, rfl⟩ := List.cons.inj hbytes
          exact hb (hall b List.mem_cons_self)

private theorem leadBits_one (b : UInt8) : leadBits b 1 = b.toNat - 0xC0 := rfl

private theorem leadBits_two (b : UInt8) : leadBits b 2 = b.toNat - 0xE0 := rfl

private theorem leadBits_three (b : UInt8) : leadBits b 3 = b.toNat - 0xF0 := rfl

private theorem exists_announced_iff {b b₁ : UInt8} {more : Nat} :
    (∃ low high, announced b = some (more + 1, low, high) ∧ low.toNat ≤ b₁.toNat ∧
      b₁.toNat ≤ high.toNat) ↔
    (0x80 ≤ b₁.toNat ∧ b₁.toNat ≤ 0xBF) ∧
      (more = 0 ∧ 0xC2 ≤ b.toNat ∧ b.toNat ≤ 0xDF ∨
        more = 1 ∧ 0xE0 ≤ b.toNat ∧ b.toNat ≤ 0xEF ∧ (b.toNat = 0xE0 → 0xA0 ≤ b₁.toNat) ∧
          (b.toNat = 0xED → b₁.toNat ≤ 0x9F) ∨
        more = 2 ∧ 0xF0 ≤ b.toNat ∧ b.toNat ≤ 0xF4 ∧ (b.toNat = 0xF0 → 0x90 ≤ b₁.toNat) ∧
          (b.toNat = 0xF4 → b₁.toNat ≤ 0x8F)) := by
  have hsome (n : Nat) (l h : UInt8) :
      (∃ low high, some (n, l, h) = some (more + 1, low, high) ∧ low.toNat ≤ b₁.toNat ∧
        b₁.toNat ≤ high.toNat) ↔ n = more + 1 ∧ l.toNat ≤ b₁.toNat ∧ b₁.toNat ≤ h.toNat := by
    constructor
    · rintro ⟨low, high, heq, hrange⟩
      cases heq
      exact ⟨rfl, hrange⟩
    · rintro ⟨rfl, hrange⟩
      exact ⟨l, h, rfl, hrange⟩
  rw [announced_eq]
  split_ifs
  all_goals
    simp only [hsome, UInt8.reduceToNat, reduceCtorEq, false_and, exists_false, false_iff]
    omega

private theorem piece_of_announced {b low high : UInt8} (b₁ : UInt8) (tail : List UInt8)
    (hannounced : announced b = some (tail.length + 1, low, high)) (hlow : low.toNat ≤ b₁.toNat)
    (hhigh : b₁.toNat ≤ high.toNat) (htail : ∀ b ∈ tail, 0x80 ≤ b.toNat ∧ b.toNat ≤ 0xBF)
    (after : List UInt8) :
    piece b (b₁ :: tail ++ after) =
      .char (Char.ofNat (gather (leadBits b (tail.length + 1) * 64 + (b₁.toNat - 0x80)) tail))
        (2 + tail.length) := by
  have hrange : (low ≤ b₁ && b₁ ≤ high) = true := by
    simp only [UInt8.le_iff_toNat_le, Bool.and_eq_true, decide_eq_true_eq]
    exact ⟨hlow, hhigh⟩
  simp only [piece, hannounced, List.cons_append, hrange, if_true]
  rw [continuation_eq_char_iff]
  refine ⟨tail, after, rfl, rfl, rfl, ?_, rfl⟩
  intro a ha
  exact isContinuation_iff.mpr (htail a ha)

/-- Bytes that carry a code point are read as its character, whatever comes after them. -/
theorem Layout.piece {v : Nat} {b : UInt8} {tail : List UInt8} (h : Layout v (b :: tail))
    (after : List UInt8) :
    piece b (tail ++ after) = .char (Char.ofNat v) (tail.length + 1) := by
  cases h with
  | one hv h₀ =>
    have hannounced : announced b = some (0, 0x80, 0xBF) := by
      rw [announced_eq, if_pos (by omega)]
    simp [Utf8.piece, hannounced, h₀]
  | @two _ b₁ hv h₀ h₁ =>
    obtain ⟨low, high, hannounced, hlow, hhigh⟩ : ∃ low high,
        announced b = some (1, low, high) ∧ low.toNat ≤ b₁.toNat ∧ b₁.toNat ≤ high.toNat :=
      exists_announced_iff.mpr (by omega)
    have hvalue : gather (leadBits b 1 * 64 + (b₁.toNat - 0x80)) [] = v := by
      rw [gather_nil, leadBits_one]
      omega
    have hpiece := piece_of_announced b₁ [] hannounced hlow hhigh (by simp) after
    rw [List.length_nil, hvalue] at hpiece
    exact hpiece
  | @three _ b₁ b₂ hv h₀ h₁ h₂ =>
    obtain ⟨low, high, hannounced, hlow, hhigh⟩ : ∃ low high,
        announced b = some (2, low, high) ∧ low.toNat ≤ b₁.toNat ∧ b₁.toNat ≤ high.toNat :=
      exists_announced_iff.mpr (by omega)
    have hvalue : gather (leadBits b 2 * 64 + (b₁.toNat - 0x80)) [b₂] = v := by
      rw [gather_cons, gather_nil, leadBits_two]
      omega
    have hpiece := piece_of_announced b₁ [b₂] hannounced hlow hhigh (by simp; omega) after
    rw [List.length_singleton, hvalue] at hpiece
    exact hpiece
  | @four _ b₁ b₂ b₃ hv h₀ h₁ h₂ h₃ =>
    obtain ⟨low, high, hannounced, hlow, hhigh⟩ : ∃ low high,
        announced b = some (3, low, high) ∧ low.toNat ≤ b₁.toNat ∧ b₁.toNat ≤ high.toNat :=
      exists_announced_iff.mpr (by omega)
    have hvalue : gather (leadBits b 3 * 64 + (b₁.toNat - 0x80)) [b₂, b₃] = v := by
      rw [gather_cons, gather_cons, gather_nil, leadBits_three]
      omega
    have hpiece := piece_of_announced b₁ [b₂, b₃] hannounced hlow hhigh (by simp; omega) after
    rw [List.length_cons, List.length_singleton, hvalue] at hpiece
    exact hpiece

private theorem toNat_ofNat {n : Nat} (h : n < 0xD800 ∨ 0xE000 ≤ n ∧ n < 0x110000) :
    (Char.ofNat n).toNat = n := by
  have hvalid : n.isValidChar := h
  rw [Char.ofNat, dif_pos hvalid]
  rfl

theorem exists_layout_of_piece {b : UInt8} {rest : List UInt8} {c : Char} {n : Nat}
    (h : Utf8.piece b rest = .char c n) :
    ∃ tail after, rest = tail ++ after ∧ n = tail.length + 1 ∧ Layout c.toNat (b :: tail) := by
  rw [Utf8.piece.eq_def] at h
  split at h
  · cases h
  · rename_i hannounced
    have hb : b.toNat ≤ 0x7F := by
      rw [announced_eq] at hannounced
      grind
    cases h
    have hc := toNat_ofNat (n := b.toNat) (by omega)
    exact ⟨[], rest, rfl, rfl, .one (by omega) (by omega)⟩
  · rename_i more low high hannounced
    cases rest with
    | nil => cases h
    | cons b₁ rest =>
      dsimp only at h
      split at h
      · rename_i hrange
        rw [Bool.and_eq_true, decide_eq_true_eq, decide_eq_true_eq, UInt8.le_iff_toNat_le,
          UInt8.le_iff_toNat_le] at hrange
        obtain ⟨hb₁, hlead⟩ := exists_announced_iff.mp ⟨low, high, hannounced, hrange⟩
        obtain ⟨tail, after, rfl, hlength, rfl, hall, hc⟩ := continuation_eq_char_iff.mp h
        refine ⟨b₁ :: tail, after, rfl, by rw [List.length_cons, hlength, Nat.add_comm 2], ?_⟩
        have htail : ∀ a ∈ tail, 0x80 ≤ a.toNat ∧ a.toNat ≤ 0xBF := by
          intro a ha
          exact isContinuation_iff.mp (hall a ha)
        obtain ⟨rfl, hb⟩ | ⟨rfl, hb⟩ | ⟨rfl, hb⟩ := hlead
        · obtain rfl := List.length_eq_zero_iff.mp hlength
          rw [hc, gather_nil, leadBits_one, toNat_ofNat (by omega)]
          exact .two (by omega) (by omega) (by omega)
        · obtain ⟨b₂, rfl⟩ := List.length_eq_one_iff.mp hlength
          have hb₂ := htail b₂ (by simp)
          rw [hc, gather_cons, gather_nil, leadBits_two, toNat_ofNat (by omega)]
          exact .three (by omega) (by omega) (by omega) (by omega)
        · obtain ⟨b₂, b₃, rfl⟩ := List.length_eq_two.mp hlength
          have hb₂ := htail b₂ (by simp)
          have hb₃ := htail b₃ (by simp)
          rw [hc, gather_cons, gather_cons, gather_nil, leadBits_three, toNat_ofNat (by omega)]
          exact .four (by omega) (by omega) (by omega) (by omega) (by omega)
      · cases h

/-- The first piece of some bytes is a character if and only if they start with its bytes. -/
theorem piece_eq_char_iff {b : UInt8} {rest : List UInt8} {c : Char} {n : Nat} :
    piece b rest = .char c n ↔
      ∃ tail after, rest = tail ++ after ∧ n = tail.length + 1 ∧
        String.utf8EncodeChar c = b :: tail := by
  constructor
  · intro h
    obtain ⟨tail, after, hrest, hn, hlayout⟩ := exists_layout_of_piece h
    exact ⟨tail, after, hrest, hn, (layout_utf8EncodeChar c).unique hlayout⟩
  · rintro ⟨tail, after, rfl, rfl, hbytes⟩
    have hlayout := layout_utf8EncodeChar c
    rw [hbytes] at hlayout
    rw [hlayout.piece after, Char.ofNat_toNat]

theorem exists_utf8EncodeChar_eq_cons (c : Char) :
    ∃ b tail, String.utf8EncodeChar c = b :: tail := by
  have hlayout := layout_utf8EncodeChar c
  generalize String.utf8EncodeChar c = bytes at hlayout ⊢
  cases hlayout <;> exact ⟨_, _, rfl⟩

private theorem decodeFrom_skip (index : Nat) (tail rest : List UInt8) :
    decodeFrom index tail.length (tail ++ rest) = decodeFrom index 0 rest := by
  induction tail with
  | nil => rfl
  | cons b tail ih => simpa [decodeFrom] using ih

private theorem decodeLossyFrom_skip (tail rest : List UInt8) :
    decodeLossyFrom tail.length (tail ++ rest) = decodeLossyFrom 0 rest := by
  induction tail with
  | nil => rfl
  | cons b tail ih => simpa [decodeLossyFrom] using ih

private theorem decodeFrom_utf8EncodeChar (index : Nat) (c : Char) (rest : List UInt8) :
    decodeFrom index 0 (String.utf8EncodeChar c ++ rest) =
      (decodeFrom (index + (String.utf8EncodeChar c).length) 0 rest).map (c :: ·) := by
  obtain ⟨b, tail, hbytes⟩ := exists_utf8EncodeChar_eq_cons c
  have hpiece : piece b (tail ++ rest) = .char c (tail.length + 1) :=
    piece_eq_char_iff.mpr ⟨tail, rest, rfl, rfl, hbytes⟩
  rw [hbytes]
  simp only [List.cons_append, decodeFrom, hpiece, Nat.add_sub_cancel, List.length_cons,
    decodeFrom_skip]

theorem decodeLossyFrom_utf8EncodeChar (c : Char) (rest : List UInt8) :
    decodeLossyFrom 0 (String.utf8EncodeChar c ++ rest) = c :: decodeLossyFrom 0 rest := by
  obtain ⟨b, tail, hbytes⟩ := exists_utf8EncodeChar_eq_cons c
  have hpiece : piece b (tail ++ rest) = .char c (tail.length + 1) :=
    piece_eq_char_iff.mpr ⟨tail, rest, rfl, rfl, hbytes⟩
  rw [hbytes]
  simp only [List.cons_append, decodeLossyFrom, hpiece, Nat.add_sub_cancel, decodeLossyFrom_skip]

theorem decodeFrom_flatMap (index : Nat) (cs : List Char) :
    decodeFrom index 0 (cs.flatMap String.utf8EncodeChar) = .ok cs := by
  induction cs generalizing index with
  | nil => rfl
  | cons c cs ih => rw [List.flatMap_cons, decodeFrom_utf8EncodeChar, ih]; rfl

theorem flatMap_of_decodeFrom {index : Nat} {bytes : List UInt8} {cs : List Char}
    (h : decodeFrom index 0 bytes = .ok cs) : cs.flatMap String.utf8EncodeChar = bytes := by
  match bytes with
  | [] =>
    cases h
    rfl
  | b :: rest =>
    rw [decodeFrom] at h
    rcases hpiece : piece b rest with ⟨c, n⟩ | n | n
    · obtain ⟨tail, after, hrest, rfl, hbytes⟩ := piece_eq_char_iff.mp hpiece
      have hshorter : after.length < (b :: rest).length := by
        simp only [hrest, List.length_cons, List.length_append]
        omega
      simp only [hpiece, Nat.add_sub_cancel] at h
      rw [hrest, decodeFrom_skip] at h
      rcases hafter : decodeFrom (index + (tail.length + 1)) 0 after with defect | cs'
      · rw [hafter] at h
        cases h
      · rw [hafter] at h
        cases h
        rw [List.flatMap_cons, hbytes, flatMap_of_decodeFrom hafter, List.cons_append, hrest]
    · simp only [hpiece, reduceCtorEq] at h
    · simp only [hpiece, reduceCtorEq] at h
termination_by bytes.length

/-- Bytes are read as a text if and only if they are the bytes of that text. -/
theorem decode_eq_ok_iff {bytes : List UInt8} {text : String} :
    decode bytes = .ok text ↔ encode text = bytes := by
  unfold decode encode
  constructor
  · intro h
    rcases hbytes : decodeFrom 0 0 bytes with defect | cs
    · rw [hbytes] at h
      cases h
    · rw [hbytes] at h
      cases h
      rw [String.toList_ofList]
      exact flatMap_of_decodeFrom hbytes
  · rintro rfl
    rw [decodeFrom_flatMap]
    simp [Except.map]

theorem decode_encode (text : String) : decode (encode text) = .ok text :=
  decode_eq_ok_iff.mpr rfl

theorem encode_injective : Function.Injective encode := by
  intro text text' h
  have hdecode := decode_eq_ok_iff.mpr h
  rw [decode_encode, Except.ok.injEq] at hdecode
  exact hdecode.symm

theorem decodeLossy_append (left : String) (rest : List UInt8) :
    decodeLossy (encode left ++ rest) = left ++ decodeLossy rest := by
  have hchars (cs : List Char) :
      decodeLossyFrom 0 (cs.flatMap String.utf8EncodeChar ++ rest) =
        cs ++ decodeLossyFrom 0 rest := by
    induction cs with
    | nil => rfl
    | cons c cs ih =>
      rw [List.flatMap_cons, List.append_assoc, decodeLossyFrom_utf8EncodeChar, ih]
      rfl
  rw [decodeLossy, encode, hchars, String.ofList_append, String.ofList_toList, decodeLossy]

theorem decodeLossy_encode (text : String) : decodeLossy (encode text) = text := by
  have hempty : decodeLossy [] = "" := rfl
  have happend := decodeLossy_append text []
  rwa [List.append_nil, hempty, String.append_empty] at happend

theorem Layout.eq_singleton {v : Nat} {bytes : List UInt8} (h : Layout v bytes) {b : UInt8}
    (hmem : b ∈ bytes) (hb : b.toNat < 0x80) : bytes = [b] ∧ b.toNat = v := by
  cases h with
  | one hv h₀ =>
    obtain rfl := List.mem_singleton.mp hmem
    exact ⟨rfl, h₀⟩
  | two hv h₀ h₁ =>
    exfalso
    simp only [List.mem_cons, List.not_mem_nil, or_false] at hmem
    rcases hmem with rfl | rfl <;> omega
  | three hv h₀ h₁ h₂ =>
    exfalso
    simp only [List.mem_cons, List.not_mem_nil, or_false] at hmem
    rcases hmem with rfl | rfl | rfl <;> omega
  | four hv h₀ h₁ h₂ h₃ =>
    exfalso
    simp only [List.mem_cons, List.not_mem_nil, or_false] at hmem
    rcases hmem with rfl | rfl | rfl | rfl <;> omega

theorem mem_utf8EncodeChar_iff {b : UInt8} (hb : b.toNat < 0x80) {c : Char} :
    b ∈ String.utf8EncodeChar c ↔ c = Char.ofNat b.toNat := by
  have hlayout := layout_utf8EncodeChar c
  constructor
  · intro hmem
    obtain ⟨-, hc⟩ := hlayout.eq_singleton hmem hb
    rw [hc, Char.ofNat_toNat]
  · rintro rfl
    rw [toNat_ofNat (by omega)] at hlayout
    have hone : Layout b.toNat [b] := .one hb rfl
    rw [hlayout.unique hone]
    exact List.mem_singleton_self b

theorem mem_encode_iff {b : UInt8} (hb : b.toNat < 0x80) {text : String} :
    b ∈ encode text ↔ Char.ofNat b.toNat ∈ text.toList := by
  simp only [encode, List.mem_flatMap, mem_utf8EncodeChar_iff hb, exists_eq_right]

theorem exists_append_of_encode {text left : String} {rest : List UInt8}
    (h : encode text = encode left ++ rest) :
    ∃ right, text = left ++ right ∧ encode right = rest := by
  have htext : text = left ++ decodeLossy rest := by
    rw [← decodeLossy_append, ← h, decodeLossy_encode]
  refine ⟨_, htext, ?_⟩
  rw [htext, encode_append] at h
  exact List.append_cancel_left h

theorem exists_append_of_encode_eq {text : String} {before after : List UInt8}
    (hafter : ∀ b ∈ after.head?, b.toNat < 0x80) (h : encode text = before ++ after) :
    ∃ left right, text = left ++ right ∧ encode left = before ∧ encode right = after := by
  have hchars (cs : List Char) (before : List UInt8)
      (h : cs.flatMap String.utf8EncodeChar = before ++ after) :
      ∃ left, encode left = before := by
    induction cs generalizing before with
    | nil =>
      obtain ⟨rfl, -⟩ := List.append_eq_nil_iff.mp h.symm
      exact ⟨"", rfl⟩
    | cons c cs ih =>
      rw [List.flatMap_cons] at h
      rcases List.append_eq_append_iff.mp h with ⟨more, rfl, hmore⟩ | ⟨more, hchar, hmore⟩
      · obtain ⟨left, rfl⟩ := ih more hmore
        refine ⟨String.ofList [c] ++ left, ?_⟩
        rw [encode_append, encode_ofList, List.flatMap_singleton]
      · cases more with
        | nil =>
          refine ⟨String.ofList [c], ?_⟩
          rw [encode_ofList, List.flatMap_singleton, hchar, List.append_nil]
        | cons b more =>
          have hb : b.toNat < 0x80 := hafter b (by rw [hmore]; rfl)
          have hmem : b ∈ String.utf8EncodeChar c := by simp [hchar]
          have hone := ((layout_utf8EncodeChar c).eq_singleton hmem hb).1
          rw [hone] at hchar
          obtain rfl : before = [] := by
            have hlength := congrArg List.length hchar
            simp only [List.length_append, List.length_cons, List.length_nil] at hlength
            exact List.eq_nil_of_length_eq_zero (by omega)
          exact ⟨"", rfl⟩
  obtain ⟨left, rfl⟩ := hchars text.toList before h
  obtain ⟨right, htext, hright⟩ := exists_append_of_encode h
  exact ⟨left, right, htext, rfl, hright⟩

theorem getLast?_of_encode {b : UInt8} (hb : b.toNat < 0x80) {text : String}
    (h : (encode text).getLast? = some b) : text.toList.getLast? = some (Char.ofNat b.toNat) := by
  rw [encode] at h
  rcases List.eq_nil_or_concat text.toList with hnil | ⟨cs, c, hcs⟩
  · rw [hnil] at h
    cases h
  · rw [hcs] at h ⊢
    obtain ⟨b', tail, hbytes⟩ := exists_utf8EncodeChar_eq_cons c
    have hlast : b ∈ String.utf8EncodeChar c := by
      rw [List.concat_eq_append, List.flatMap_append, List.flatMap_singleton,
        List.getLast?_append, hbytes] at h
      rw [hbytes]
      exact List.mem_of_getLast? (by simpa using h)
    rw [(mem_utf8EncodeChar_iff hb).mp hlast]
    simp

theorem injective_ofNat_toNat : Function.Injective fun b : UInt8 => Char.ofNat b.toNat := by
  intro a b h
  have ha := a.toNat_lt
  have hb := b.toNat_lt
  have hnat := congrArg Char.toNat h
  dsimp only at hnat
  rw [toNat_ofNat (by omega), toNat_ofNat (by omega)] at hnat
  exact UInt8.toNat_inj.mp hnat

private theorem exists_size_continuation (value size more : Nat) (bytes : List UInt8) :
    ∃ tail after, bytes = tail ++ after ∧
      (continuation value size more bytes).size = size + tail.length ∧
      ∀ b ∈ tail, 0x80 ≤ b.toNat := by
  induction more generalizing value size bytes with
  | zero => exact ⟨[], bytes, rfl, rfl, by simp⟩
  | succ more ih =>
    cases bytes with
    | nil => exact ⟨[], [], rfl, rfl, by simp⟩
    | cons b rest =>
      by_cases hb : isContinuation b = true
      · obtain ⟨tail, after, rfl, hsize, htail⟩ :=
          ih (value * 64 + (b.toNat - 0x80)) (size + 1) rest
        refine ⟨b :: tail, after, rfl, ?_, ?_⟩
        · simp only [continuation, hb, if_true, hsize, List.length_cons]
          omega
        · simpa using ⟨(isContinuation_iff.mp hb).1, htail⟩
      · refine ⟨[], b :: rest, rfl, ?_, by simp⟩
        simp [continuation, hb, Piece.size]

private theorem exists_size_piece (b : UInt8) (rest : List UInt8) :
    ∃ tail after, rest = tail ++ after ∧ (piece b rest).size = tail.length + 1 ∧
      ∀ a ∈ tail, 0x80 ≤ a.toNat := by
  rw [piece.eq_def]
  split
  · exact ⟨[], rest, rfl, rfl, by simp⟩
  · exact ⟨[], rest, rfl, rfl, by simp⟩
  · rename_i more low high hannounced
    cases rest with
    | nil => exact ⟨[], [], rfl, rfl, by simp⟩
    | cons c rest =>
      dsimp only
      split
      · rename_i hrange
        rw [Bool.and_eq_true, decide_eq_true_eq, decide_eq_true_eq, UInt8.le_iff_toNat_le,
          UInt8.le_iff_toNat_le] at hrange
        obtain ⟨hc, -⟩ := exists_announced_iff.mp ⟨low, high, hannounced, hrange⟩
        obtain ⟨tail, after, rfl, hsize, htail⟩ :=
          exists_size_continuation (leadBits b (more + 1) * 64 + (c.toNat - 0x80)) 2 more rest
        refine ⟨c :: tail, after, rfl, ?_, ?_⟩
        · rw [hsize, List.length_cons]
          omega
        · simpa using ⟨hc.1, htail⟩
      · exact ⟨[], c :: rest, rfl, rfl, by simp⟩

theorem decodeLossyFrom_of_lt {b : UInt8} (hb : b.toNat < 0x80) (rest : List UInt8) :
    decodeLossyFrom 0 (b :: rest) = Char.ofNat b.toNat :: decodeLossyFrom 0 rest := by
  have hlayout : Layout b.toNat (b :: []) := .one hb rfl
  have hpiece := hlayout.piece rest
  rw [List.nil_append] at hpiece
  simp [decodeLossyFrom, hpiece]

theorem exists_decodeLossyFrom_of_le {b : UInt8} (hb : 0x80 ≤ b.toNat) (rest : List UInt8) :
    ∃ c tail after, rest = tail ++ after ∧ (∀ a ∈ tail, 0x80 ≤ a.toNat) ∧ 0x80 ≤ c.toNat ∧
      decodeLossyFrom 0 (b :: rest) = c :: decodeLossyFrom 0 after := by
  obtain ⟨tail, after, rfl, hsize, htail⟩ := exists_size_piece b rest
  have hreplacement : 0x80 ≤ replacement.toNat := by decide
  rw [decodeLossyFrom]
  rcases hpiece : piece b (tail ++ after) with ⟨c, n⟩ | n | n
  · obtain rfl : n = tail.length + 1 := by rwa [hpiece] at hsize
    refine ⟨c, tail, after, rfl, htail, ?_, ?_⟩
    · obtain ⟨tail', -, -, -, hlayout⟩ := exists_layout_of_piece hpiece
      cases hlayout <;> omega
    · simp only [Nat.add_sub_cancel, decodeLossyFrom_skip]
  · obtain rfl : n = tail.length + 1 := by rwa [hpiece] at hsize
    exact ⟨replacement, tail, after, rfl, htail, hreplacement, by simp [decodeLossyFrom_skip]⟩
  · obtain rfl : n = tail.length + 1 := by rwa [hpiece] at hsize
    exact ⟨replacement, tail, after, rfl, htail, hreplacement, by simp [decodeLossyFrom_skip]⟩

/-- However ill-formed some bytes are, those below 128 are read as the characters that they are, in
their order, and no others are read as such characters. -/
theorem filter_decodeLossyFrom (bytes : List UInt8) :
    (decodeLossyFrom 0 bytes).filter (·.toNat < 0x80) =
      (bytes.filter (·.toNat < 0x80)).map (Char.ofNat ·.toNat) := by
  match bytes with
  | [] => rfl
  | b :: rest =>
    by_cases hb : b.toNat < 0x80
    · have hrest := filter_decodeLossyFrom rest
      simp [decodeLossyFrom_of_lt hb, hb, toNat_ofNat (n := b.toNat) (by omega), hrest]
    · obtain ⟨c, tail, after, rfl, htail, hc, hdecode⟩ :=
        exists_decodeLossyFrom_of_le (Nat.le_of_not_lt hb) rest
      have hnone : tail.filter (·.toNat < 0x80) = [] := by simpa using htail
      have hafter := filter_decodeLossyFrom after
      simp [hdecode, hb, Nat.not_lt.mpr hc, hnone, hafter]
termination_by bytes.length

end StackScript.Utf8
