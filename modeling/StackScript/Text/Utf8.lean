/-!
# Texts as bytes

Texts leave and enter the program as UTF-8.  `Utf8.encode` writes a text as bytes.  Reading cuts a
byte list into pieces: well-formed characters and maximal ill-formed parts.  `Utf8.decode` accepts
well-formed bytes only and names the first defect otherwise; `Utf8.decodeLossy` replaces each
ill-formed part by one replacement character.
-/

namespace StackScript.Utf8

/-- The bytes of a text. -/
def encode (text : String) : List UInt8 :=
  text.toList.flatMap String.utf8EncodeChar

@[simp] theorem encode_empty : encode "" = [] := rfl

@[simp] theorem encode_append (a b : String) : encode (a ++ b) = encode a ++ encode b := by
  simp [encode]

@[simp] theorem encode_ofList (cs : List Char) :
    encode (String.ofList cs) = cs.flatMap String.utf8EncodeChar := by
  simp [encode]

def isContinuation (b : UInt8) : Bool :=
  0x80 ≤ b && b ≤ 0xBF

/-- What a first byte announces: the number of bytes still to come and the range the next of them
must lie in.  The ranges exclude overlong forms, surrogates and values above U+10FFFF. -/
def announced (b : UInt8) : Option (Nat × UInt8 × UInt8) :=
  if b ≤ 0x7F then some (0, 0x80, 0xBF)
  else if 0xC2 ≤ b && b ≤ 0xDF then some (1, 0x80, 0xBF)
  else if b = 0xE0 then some (2, 0xA0, 0xBF)
  else if b = 0xED then some (2, 0x80, 0x9F)
  else if 0xE1 ≤ b && b ≤ 0xEF then some (2, 0x80, 0xBF)
  else if b = 0xF0 then some (3, 0x90, 0xBF)
  else if b = 0xF4 then some (3, 0x80, 0x8F)
  else if 0xF1 ≤ b && b ≤ 0xF3 then some (3, 0x80, 0xBF)
  else none

/-- A first piece of a byte list. -/
inductive Piece where
  /-- A well-formed character of the given number of bytes. -/
  | char (c : Char) (size : Nat)
  /-- An ill-formed part that more bytes could not have mended. -/
  | broken (size : Nat)
  /-- A part that is well formed so far and is cut off by the end of the bytes. -/
  | cut (size : Nat)
deriving Repr, DecidableEq

def Piece.size : Piece → Nat
  | .char _ n => n
  | .broken n => n
  | .cut n => n

/-- Read the remaining continuation bytes of a character.  `value` holds the bits read so far and
`size` counts the bytes read so far. -/
def continuation (value size : Nat) : Nat → List UInt8 → Piece
  | 0, _ => .char (Char.ofNat value) size
  | _ + 1, [] => .cut size
  | more + 1, b :: rest =>
    if isContinuation b then
      continuation (value * 64 + (b.toNat - 0x80)) (size + 1) more rest
    else
      .broken size

/-- The bits that a first byte contributes when `more` bytes follow it. -/
def leadBits (b : UInt8) : Nat → Nat
  | 0 => b.toNat
  | 1 => b.toNat - 0xC0
  | 2 => b.toNat - 0xE0
  | _ => b.toNat - 0xF0

def piece (b : UInt8) (rest : List UInt8) : Piece :=
  match announced b with
  | none => .broken 1
  | some (0, _, _) => .char (Char.ofNat b.toNat) 1
  | some (more + 1, low, high) =>
    match rest with
    | [] => .cut 1
    | c :: rest' =>
      if low ≤ c && c ≤ high then
        continuation (leadBits b (more + 1) * 64 + (c.toNat - 0x80)) 2 more rest'
      else
        .broken 1

/-- Why bytes are not well-formed UTF-8. -/
structure Defect where
  /-- The number of well-formed bytes before the defect. -/
  index : Nat
  /-- The length of the ill-formed part, or nothing when the bytes end inside a character. -/
  size : Option Nat
deriving Repr, DecidableEq

def Defect.message (d : Defect) : String :=
  match d.size with
  | some n => s!"invalid utf-8 sequence of {n} bytes from index {d.index}"
  | none => s!"incomplete utf-8 byte sequence from index {d.index}"

/-- Read well-formed bytes, starting at the given index.  `skip` counts the bytes that belong to
the character read last. -/
def decodeFrom (index : Nat) : Nat → List UInt8 → Except Defect (List Char)
  | _, [] => .ok []
  | skip + 1, _ :: rest => decodeFrom index skip rest
  | 0, b :: rest =>
    match piece b rest with
    | .char c n => (decodeFrom (index + n) (n - 1) rest).map (c :: ·)
    | .broken n => .error ⟨index, some n⟩
    | .cut _ => .error ⟨index, none⟩

/-- The text of well-formed bytes, or the first defect. -/
def decode (bytes : List UInt8) : Except Defect String :=
  (decodeFrom 0 0 bytes).map String.ofList

/-- The character that stands for an ill-formed part. -/
def replacement : Char := Char.ofNat 0xFFFD

/-- The characters of any bytes, one replacement character for each ill-formed part.  `skip` counts
the bytes that belong to the piece read last. -/
def decodeLossyFrom : Nat → List UInt8 → List Char
  | _, [] => []
  | skip + 1, _ :: rest => decodeLossyFrom skip rest
  | 0, b :: rest =>
    match piece b rest with
    | .char c n => c :: decodeLossyFrom (n - 1) rest
    | .broken n => replacement :: decodeLossyFrom (n - 1) rest
    | .cut n => replacement :: decodeLossyFrom (n - 1) rest

/-- The text of any bytes, one replacement character for each ill-formed part. -/
def decodeLossy (bytes : List UInt8) : String :=
  String.ofList (decodeLossyFrom 0 bytes)

end StackScript.Utf8
