import StackScript.Error
import StackScript.Source.Cursor
import StackScript.Source.Lexeme
/-!
# Tokens

A token is a lexeme with its text and the place where it starts.  Tokens are read off a cursor one
at a time.  Nothing after a token is taken from its source except the one blank that ends a call
or a text word, so a source can be shared with whoever else reads from it.
-/

namespace StackScript

/-- What a token says. -/
inductive Form where
  | endOfInput
  | call (name : String)
  | quotation (code : String)
  | text (text : String)
  | textWord (text : String)
  | comment (text : String)
deriving Repr, DecidableEq

/-- A token and the place of its first byte. -/
structure Token where
  location : Location
  form : Form
deriving Repr, DecidableEq

def Token.display (t : Token) : String :=
  let located := fun (kind : String) => kind ++ " (" ++ t.location.text ++ ")"
  match t.form with
  | .endOfInput => located "end-of-input"
  | .call name => located "function-call" ++ " " ++ Text.quoted name
  | .quotation code => located "quotation" ++ " " ++ Text.quoted code
  | .text text => located "literal-text" ++ " " ++ Text.quoted text
  | .textWord text => located "literal-text-word" ++ " " ++ Text.quoted text
  | .comment text => located "comment" ++ " " ++ Text.quoted text

/-- What a lexeme says, or the problem with it. -/
def Lexeme.form : Lexeme → Except Problem Form
  | .nothing => .ok .endOfInput
  | .call name => .ok (.call (Utf8.decodeLossy name))
  | .textWord word => .ok (.textWord (Utf8.decodeLossy word))
  | .quotation body => .ok (.quotation (Utf8.decodeLossy body))
  | .comment body => .ok (.comment (Utf8.decodeLossy body))
  | .text body => .ok (.text (Utf8.decodeLossy body))
  | .unclosed mark => .error (.unclosed mark)
  | .unexpected byte => .error (.unexpected byte)

namespace Cursor

/-- The first lexeme after the blanks at a cursor. -/
def lexeme (c : Cursor) : Cut :=
  Lexeme.cut (c.pending.dropWhile isBlank)

def tokenStart (c : Cursor) : Location :=
  c.location.afterAll (c.pending.takeWhile isBlank)

/-- The cursor after a lexeme that was cut off it. -/
def skip (c : Cursor) (cut : Cut) : Cursor :=
  let location := c.tokenStart.afterAll cut.used
  match cut.ending, cut.rest with
  | .blank, b :: rest => { source := { c.source with bytes := rest }, ahead := some b, location }
  | _, rest => { source := { c.source with bytes := rest }, location }

/-- Read a token.  Looking at the end of a source that fails there loses the token. -/
def token (c : Cursor) : Except Cause Token × Cursor :=
  let cut := c.lexeme
  let after := c.skip cut
  match cut.ending, c.source.failure with
  | .source, some f => (.error (.failure f), { after with source := { bytes := [] } })
  | _, _ =>
    match cut.lexeme.form with
    | .ok form => (.ok ⟨c.tokenStart, form⟩, after)
    | .error problem => (.error (.malformed problem after.location), after)

def tokensUpTo : Nat → Cursor → List Token × Option Cause
  | 0, _ => ([], none)
  | limit + 1, c =>
    match c.token with
    | (.error cause, _) => ([], some cause)
    | (.ok token, after) =>
      if token.form = .endOfInput then ([token], none)
      else
        let (tokens, cause) := tokensUpTo limit after
        (token :: tokens, cause)

/-- Read tokens up to the end of the source or the first problem.  Every token but the last takes
at least one byte. -/
def tokens (c : Cursor) : List Token × Option Cause :=
  c.tokensUpTo (c.pending.length + 1)

end Cursor

/-- All tokens of a source, with the end of the source as the last one. -/
def Source.tokens (s : Source) : Except Cause (List Token) :=
  match (Cursor.ofSource s).tokens with
  | (tokens, none) => .ok tokens
  | (_, some cause) => .error cause

end StackScript
