import StackScript.Stack.Basic
import StackScript.Text.Integer
/-!
# Arguments of the command line

The program runs a script from a file or from its standard input, or a command: serve sessions to
others, connect to a server, or serve the echo demo.  Arguments are read from left to right.  A
command name ends the arguments of the program and starts those of the command.
-/

namespace StackScript.CommandLine

/-- What the program is asked to do. -/
inductive Command where
  /-- Run a script, from standard input when no file is named. -/
  | script (file : Option String)
  /-- List the words of a new machine. -/
  | words
  /-- Run the programs that a server sends. -/
  | connect (address : String)
  | serve (address : String)
  | echoServer (address : String)
  | help
deriving Repr, DecidableEq

/-- What the program is asked to do, and how. -/
structure Invocation where
  command : Command
  seed : Option UInt64
  capacity : Nat
deriving Repr, DecidableEq

/-- The options that take a value. -/
inductive Setting where
  | seed
  | capacity
  | listen
deriving Repr, DecidableEq

/-- The arguments that may stand together. -/
structure Level where
  commands : List String
  words : Bool
  listen : Bool
  positional : Bool
deriving Repr, DecidableEq

def Level.program : Level :=
  { commands := ["serve", "connect", "echo-server", "help"]
    words := true, listen := false, positional := true }

def Level.connecting : Level :=
  { commands := [], words := false, listen := false, positional := true }

def Level.serving : Level :=
  { commands := [], words := false, listen := true, positional := false }

/-- What has been read of the arguments. -/
structure Seen where
  /-- The option whose value comes next. -/
  wanted : Option Setting := none
  /-- Whether the rest are no options. -/
  escaped : Bool := false
  help : Bool := false
  words : Bool := false
  seed : Option UInt64 := none
  capacity : Option Nat := none
  listen : Option String := none
  positional : Option String := none
deriving Repr, DecidableEq

def longOption? (arg : String) : Option (String × Option String) :=
  match arg.toList with
  | '-' :: '-' :: body =>
    let name := String.ofList (body.takeWhile (· ≠ '='))
    match body.dropWhile (· ≠ '=') with
    | [] => some (name, none)
    | _ :: value => some (name, some (String.ofList value))
  | _ => none

def looksLikeOption (arg : String) : Bool :=
  arg.toList.head? = some '-'

def natural? (limit : Nat) (text : String) : Option Nat :=
  let digits :=
    match text.toList with
    | '+' :: rest => rest
    | cs => cs
  (Integer.digits (limit - 1) .tooLarge digits).toOption

/-- Whether a text is four decimal bytes between points, written without needless zeros. -/
def isHostAddress (text : List Char) : Bool :=
  let isByte := fun (part : String) =>
    1 ≤ part.length && part.length ≤ 3 && part.toList.all Char.isDigit &&
      (part.length = 1 || part.toList.head? ≠ some '0') &&
      (Integer.digits 255 .tooLarge part.toList).isOk
  let parts := (String.ofList text).splitOn "."
  parts.length = 4 && parts.all isByte

/-- Whether a text is up to eight hexadecimal groups between colons, one run of which may be left
out. -/
def isLongHostAddress (text : List Char) : Bool :=
  let isGroup := fun (part : String) =>
    1 ≤ part.length && part.length ≤ 4 &&
      part.toList.all fun c => c.isDigit || "abcdefABCDEF".toList.contains c
  let groups := fun (part : String) => if part.isEmpty then [] else part.splitOn ":"
  match (String.ofList text).splitOn "::" with
  | [whole] => (groups whole).length = 8 && (groups whole).all isGroup
  | [front, back] =>
    (groups front).length + (groups back).length < 8 &&
      (groups front).all isGroup && (groups back).all isGroup
  | _ => false

def isSocketAddress (text : String) : Bool :=
  let reversed := text.toList.reverse
  let port := (reversed.takeWhile (· ≠ ':')).reverse
  let isPort := (Integer.digits 65535 .tooLarge port).isOk
  match (reversed.dropWhile (· ≠ ':')).drop 1 with
  | ']' :: host =>
    match host.reverse with
    | '[' :: host => isPort && isLongHostAddress host
    | _ => false
  | host => isPort && isHostAddress host.reverse

namespace Seen

def supply (s : Seen) (value : String) : Setting → Option Seen
  | .seed =>
    if s.seed.isSome then none
    else (natural? (Nat.pow 2 64) value).map fun n =>
      { s with wanted := none, seed := some (UInt64.ofNat n) }
  | .capacity =>
    if s.capacity.isSome then none
    else (natural? (Nat.pow 2 64) value).map fun n => { s with wanted := none, capacity := some n }
  | .listen =>
    if s.listen.isSome || !isSocketAddress value then none
    else some { s with wanted := none, listen := some value }

def want (s : Seen) (setting : Setting) : Option String → Option Seen
  | some value => s.supply value setting
  | none => some { s with wanted := some setting }

def option (s : Seen) (level : Level) (name : String) (value : Option String) : Option Seen :=
  match name with
  | "help" => if value.isSome then none else some { s with help := true }
  | "words" =>
    if !level.words || value.isSome || s.words then none else some { s with words := true }
  | "seed" => s.want .seed value
  | "stack-capacity" => s.want .capacity value
  | "listen" => if level.listen then s.want .listen value else none
  | _ => none

def place (s : Seen) (level : Level) (arg : String) : Option Seen :=
  if !level.positional || s.positional.isSome then none
  else some { s with positional := some arg }

end Seen

/-- Read arguments up to the name of a command, which is returned with the arguments after it. -/
def scan (level : Level) : Seen → List String → Option (Seen × Option (String × List String))
  | seen, [] => if seen.wanted.isSome then none else some (seen, none)
  | seen, arg :: rest =>
    if seen.help then some (seen, none)
    else
      match seen.wanted with
      | some setting =>
        if looksLikeOption arg then none
        else
          match seen.supply arg setting with
          | some seen => scan level seen rest
          | none => none
      | none =>
        if !seen.escaped && level.commands.contains arg then some (seen, some (arg, rest))
        else if !seen.escaped && arg = "--" then scan level { seen with escaped := true } rest
        else if !seen.escaped && arg = "-h" then some ({ seen with help := true }, none)
        else if !seen.escaped && looksLikeOption arg && arg ≠ "-" then
          match longOption? arg with
          | none => none
          | some (name, value) =>
            match seen.option level name value with
            | some seen => scan level seen rest
            | none => none
        else
          match seen.place level arg with
          | some seen => scan level seen rest
          | none => none

def defaultAddress : String := "127.0.0.1:8080"

def command? (name : String) (seen : Seen) : Option Command :=
  match name with
  | "connect" => seen.positional.map .connect
  | "serve" => some (.serve (seen.listen.getD defaultAddress))
  | "echo-server" => some (.echoServer (seen.listen.getD defaultAddress))
  | _ => none

def Level.ofCommand (name : String) : Level :=
  if name = "connect" then .connecting else .serving

/-- Put what was read together.  An option of a command wins over the same option before it. -/
def Seen.invocation (program own : Seen) (command : Command) : Invocation :=
  { command
    seed := own.seed.or program.seed
    capacity := (own.capacity.or program.capacity).getD Stack.defaultCapacity }

/-- What the arguments ask for; nothing if they make no sense. -/
def parse (args : List String) : Option Invocation :=
  match scan .program {} args with
  | none => none
  | some (seen, next) =>
    if seen.help then some (seen.invocation {} .help)
    else if seen.positional = some "" then none
    else
      match next with
      | none =>
        some (seen.invocation {} (if seen.words then .words else .script seen.positional))
      | some ("help", _) => some (seen.invocation {} .help)
      | some (name, rest) =>
        match scan (.ofCommand name) {} rest with
        | some (own, none) =>
          if own.help then some (seen.invocation own .help)
          else (command? name own).map (seen.invocation own)
        | _ => none

end StackScript.CommandLine
