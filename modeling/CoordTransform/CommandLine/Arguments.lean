import CoordTransform.CommandLine.Task
import CoordTransform.Text.Split

/-!
# Reading Arguments

The arguments are read from left to right:

```text
[options] command [options and positional arguments]
```

* A *flag* stands alone (`--verbose`, or several letters as in `-vv`). A *setting* has a value,
  attached (`--config=file`) or as the next argument.
* `--config` and `--verbose` may stand before and after the command. The configuration that is
  named after the command wins.
* After `--` only positional arguments follow.
* Where the next positional argument may start with a hyphen, an argument with an unknown option
  is a value. From the first coordinate on, everything is a coordinate.

An argument takes effect when it is read, so `--help` before a mistake gives help. The value of a
setting is checked only when the next argument takes effect, or at the end.
-/

namespace CoordTransform.CommandLine

/-! ## Options -/

/-- The options without a value. -/
inductive Flag where
  | verbose
  | help
  | version
  deriving DecidableEq, Repr

/-- The options with a value. -/
inductive Setting where
  | config
  | ellipsoid
  deriving DecidableEq, Repr

/-- The name of a flag. -/
def Flag.name : Flag → String
  | verbose => "verbose"
  | help => "help"
  | version => "version"

/-- The letter of a flag. -/
def Flag.letter : Flag → Char
  | verbose => 'v'
  | help => 'h'
  | version => 'V'

/-- The name of a setting. -/
def Setting.name : Setting → String
  | config => "config"
  | ellipsoid => "ellipsoid"

/-- A path may not be empty; other values may. -/
def Setting.accepts : Setting → String → Bool
  | config, s => !s.isEmpty
  | ellipsoid, _ => true

/-! ## Scopes -/

/-- A positional argument. -/
structure Positional where
  allowsHyphen : Bool := false
  isPath : Bool := false
  deriving DecidableEq, Repr

/-- What may be written before or after a command. Once there are more positional arguments than
`repeatsAfter`, everything that follows is one. -/
structure Scope where
  flags : List Flag
  settings : List Setting
  positionals : List Positional
  repeatsAfter : Option Nat := none

namespace Scope

/-- Before the command. -/
def outer : Scope where
  flags := [.verbose, .help, .version]
  settings := [.config]
  positionals := []

/-- After a command. -/
def ofCommand : Command → Scope
  | .transform | .inverse =>
    { flags := [.verbose, .help], settings := [.config]
      positionals := [{}, { allowsHyphen := true }], repeatsAfter := some 1 }
  | .format =>
    { flags := [.verbose, .help], settings := [.config], positionals := [{}] }
  | .distance =>
    { flags := [.verbose, .help], settings := [.config, .ellipsoid]
      positionals := [{ allowsHyphen := true }, { allowsHyphen := true }] }
  | .datumPath =>
    { flags := [.verbose, .help], settings := [.config]
      positionals := [{ isPath := true }, {}, {}] }

/-- The flag with a name. -/
def flagOfName? (s : Scope) (name : String) : Option Flag := s.flags.find? (·.name == name)

/-- The flag with a letter. -/
def flagOfLetter? (s : Scope) (c : Char) : Option Flag := s.flags.find? (·.letter == c)

/-- The setting with a name. -/
def settingOfName? (s : Scope) (name : String) : Option Setting :=
  s.settings.find? (·.name == name)

/-- Whether everything after `count` positional arguments is one. -/
def repeatsAt (s : Scope) (count : Nat) : Bool :=
  match s.repeatsAfter with
  | some n => n < count
  | none => false

end Scope

/-! ## Progress -/

/-- What has been read in a scope: the settings, the setting that still waits for its value, and
the positional arguments. -/
structure Progress where
  given : List (Setting × String) := []
  pending : Option Setting := none
  values : List String := []
  deriving DecidableEq, Repr

namespace Progress

/-- The value of a setting. -/
def value? (p : Progress) (s : Setting) : Option String := p.given.lookup s

/-- Settings are in order when none waits for its value or is given twice, and every value is
accepted. -/
def settled (p : Progress) : Bool :=
  p.pending.isNone && decide (p.given.map Prod.fst).Nodup && p.given.all fun g => g.1.accepts g.2

/-- Fails unless the settings are in order. -/
def settle (p : Progress) : Except Stop Unit :=
  if p.settled then .ok () else .error .misuse

/-- Adds the value of a setting. -/
def give (p : Progress) (s : Setting) (value : String) : Progress :=
  { p with pending := none, given := p.given ++ [(s, value)] }

end Progress

/-! ## Single arguments -/

/-- The forms of an argument. -/
inductive Form where
  | escape
  | long (name : String) (attached : Option String)
  | short (letters : List Char)
  | plain
  deriving DecidableEq, Repr

/-- The form of an argument. A single hyphen is plain. -/
def Form.of (argument : String) : Form :=
  match argument.toList with
  | ['-', '-'] => .escape
  | '-' :: '-' :: cs =>
    match Text.splitFirst? '=' cs with
    | some (name, value) => .long (String.ofList name) (some (String.ofList value))
    | none => .long (String.ofList cs) none
  | '-' :: c :: cs => .short (c :: cs)
  | _ => .plain

/-- A flag takes effect. -/
def Flag.raise (f : Flag) (p : Progress) : Except Stop Progress := do
  p.settle
  match f with
  | .verbose => return p
  | .help => throw .help
  | .version => throw .version

namespace Scope

/-- Whether the next positional argument may start with a hyphen. -/
def allowsHyphen (s : Scope) (p : Progress) : Bool :=
  match s.positionals[p.values.length]? with
  | some q => q.allowsHyphen
  | none => false

/-- Adds a positional argument. -/
def place (s : Scope) (p : Progress) (a : String) : Except Stop Progress := do
  p.settle
  -- The last positional argument goes on without an end where it may be repeated.
  if s.repeatsAt p.values.length then return { p with values := p.values ++ [a] }
  match s.positionals[p.values.length]? with
  | none => throw .misuse
  | some q =>
    if q.isPath && a.isEmpty then throw .misuse
    return { p with values := p.values ++ [a] }

/-- An argument is the value of the setting that waits for one, or else positional. -/
def takeValue (s : Scope) (p : Progress) (a : String) : Except Stop Progress :=
  match p.pending with
  | some setting => .ok (p.give setting a)
  | none => s.place p a

/-- Reads an argument with two hyphens. -/
def readLong (s : Scope) (p : Progress) (a name : String) (attached : Option String) :
    Except Stop Progress :=
  match s.flagOfName? name, s.settingOfName? name with
  | some f, _ => if attached.isSome then .error .misuse else f.raise p
  | none, some setting => do
    p.settle
    match attached with
    | none => return { p with pending := some setting }
    -- An attached value is checked at once.
    | some value =>
      let q := p.give setting value
      q.settle
      return q
  | none, none => if s.allowsHyphen p then s.takeValue p a else .error .misuse

/-- Reads the letters of flags one by one. -/
def readLetters (s : Scope) (p : Progress) : List Char → Except Stop Progress
  | [] => .ok p
  | c :: cs =>
    match s.flagOfLetter? c with
    | some f => do s.readLetters (← f.raise p) cs
    | none => .error .misuse

/-- Reads an argument with one hyphen. -/
def readShort (s : Scope) (p : Progress) (a : String) (letters : List Char) :
    Except Stop Progress :=
  if s.allowsHyphen p && letters.any (fun c => (s.flagOfLetter? c).isNone) then s.takeValue p a
  else s.readLetters p letters

/-- Adds positional arguments. -/
def placeAll (s : Scope) (p : Progress) : List String → Except Stop Progress
  | [] => do p.settle; return p
  | a :: as => do s.placeAll (← s.place p a) as

/-- Reads the arguments after a command. -/
def read (s : Scope) (p : Progress) : List String → Except Stop Progress
  | [] => do p.settle; return p
  | a :: as =>
    if s.repeatsAt p.values.length then s.placeAll p (a :: as)
    else
      match Form.of a with
      | .escape => s.placeAll p as
      | .long name attached => do s.read (← s.readLong p a name attached) as
      | .short letters => do s.read (← s.readShort p a letters) as
      | .plain => do s.read (← s.takeValue p a) as

end Scope

/-! ## Whole argument lists -/

/-- The ellipsoid when none is named. -/
def defaultEllipsoid : String := "wgs84"

/-- The task of a command and what was read after it. -/
def Command.task (c : Command) (p : Progress) : Except Stop Task :=
  match c, p.values with
  | .transform, text :: x :: xs => .ok (.transform text (x :: xs))
  | .inverse, text :: x :: xs => .ok (.inverse text (x :: xs))
  | .format, [text] => .ok (.format text)
  | .distance, [start, finish] =>
    .ok (.distance ((p.value? .ellipsoid).getD defaultEllipsoid) start finish)
  | .datumPath, [catalog, source, target] => .ok (.datumPath catalog source target)
  | _, _ => .error .misuse

/-- The word that asks for help, alone or on a command. -/
def helpWord : String := "help"

/-- Reads the arguments after `help`. -/
def readHelp : List String → Stop
  | [] => .help
  | [a] => if a == helpWord || (Command.ofWord? a).isSome then .help else .misuse
  | _ => .misuse

/-- Reads a command and the arguments after it; `p` is what was read before. -/
def readCommand (p : Progress) (c : Command) (arguments : List String) :
    Except Stop Invocation := do
  -- What stands after the command is judged before what stands in front of it.
  let q ← (Scope.ofCommand c).read {} arguments
  let task ← c.task q
  p.settle
  return ⟨(q.value? .config).or (p.value? .config), task⟩

/-- Reads arguments, of which `p` has been read already. -/
def readFrom (p : Progress) : List String → Except Stop Invocation
  | [] => .error .misuse
  | a :: as =>
    match Form.of a with
    | .escape => .error .misuse
    | .long name attached => do readFrom (← Scope.outer.readLong p a name attached) as
    | .short letters => do readFrom (← Scope.outer.readShort p a letters) as
    | .plain =>
      -- A word behind a setting is its value and no command.
      if p.pending.isSome then do readFrom (← Scope.outer.takeValue p a) as
      else if a == helpWord then .error (readHelp as)
      else
        match Command.ofWord? a with
        | some c => readCommand p c as
        | none => .error .misuse

/-- Reads the arguments of the program. -/
def read (arguments : List String) : Except Stop Invocation := readFrom {} arguments

end CoordTransform.CommandLine
