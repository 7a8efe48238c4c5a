import StackScript.Text.Printable
/-!
# Quoted texts

Error messages and token listings show texts and characters between quotes.  The enclosing quote,
the backslash and a few controls are written with a backslash, any other character that is not
printable by its code point.
-/

namespace StackScript.Text

def codePoint (c : Char) : List Char :=
  ['\\', 'u', '\x7b'] ++ Nat.toDigits 16 c.toNat ++ ['\x7d']

def quotedChar (quote c : Char) : List Char :=
  if c = '\x00' then ['\\', '0']
  else if c = '\t' then ['\\', 't']
  else if c = '\r' then ['\\', 'r']
  else if c = '\n' then ['\\', 'n']
  else if c = '\\' then ['\\', '\\']
  else if c = quote then ['\\', quote]
  else if isPrintable c then [c]
  else codePoint c

def quoted (text : String) : String :=
  String.ofList (['"'] ++ text.toList.flatMap (quotedChar '"') ++ ['"'])

def quotedByte (b : UInt8) : String :=
  String.ofList (['\x27'] ++ quotedChar '\x27' (Char.ofNat b.toNat) ++ ['\x27'])

end StackScript.Text
