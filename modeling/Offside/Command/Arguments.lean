import Offside.Command.Request

/-!
# Command line arguments

    normalize [CODE] [--line-ending ENDING] [--no-merge] [--on-error POLICY]
    tokens [CODE] [--format FORMAT]
    statements [CODE] [--format FORMAT] [--no-merge]

Every command takes `--config FILE`, which may also stand before its name.
An option is given at most once at either place; its value follows it, or is
joined to it by an equals sign, or right away if its name is one letter. Two
dashes end the options.

`Invocation.parse` says what is asked for.
-/
namespace Offside

/-- What can be given besides code. -/
inductive Switch where
  | config
  | lineEnding
  | noMerge
  | onError
  | format
  | version
  deriving DecidableEq, Repr

namespace Switch

def all : List Switch := [.config, .lineEnding, .noMerge, .onError, .format, .version]

/-- The name behind two dashes. -/
def long : Switch → Text
  | .config => "config".toList
  | .lineEnding => "line-ending".toList
  | .noMerge => "no-merge".toList
  | .onError => "on-error".toList
  | .format => "format".toList
  | .version => "version".toList

/-- The letter behind one dash. -/
def short? : Switch → Option Char
  | .config => some 'c'
  | .format => some 'f'
  | .version => some 'V'
  | .lineEnding | .noMerge | .onError => none

def takesValue : Switch → Bool
  | .config | .lineEnding | .onError | .format => true
  | .noMerge | .version => false

end Switch

/-- What was given at one place: switches with their values, and at most one
word. -/
structure Given where
  values : List (Switch × Text)
  word? : Option Text
  deriving DecidableEq, Repr

namespace Given

def nothing : Given := ⟨[], none⟩

def value? (g : Given) (s : Switch) : Option Text := g.values.lookup s

def has (g : Given) (s : Switch) : Bool := (g.value? s).isSome

/-- One more switch, unless it is there already. -/
def add? (g : Given) (s : Switch) (v : Text) : Option Given :=
  if g.has s then none else some { g with values := g.values ++ [(s, v)] }

/-- The word, unless there is one already. -/
def addWord? (g : Given) (w : Text) : Option Given :=
  if g.word?.isSome then none else some { g with word? := some w }

/-- The value of a switch read by `f`; a value that `f` does not know is none
that can be given. -/
def read? {α : Type} (g : Given) (s : Switch) (f : Text → Option α) : Option (Option α) :=
  match g.value? s with
  | none => some none
  | some v => (f v).map some

end Given

/-- What one argument is. -/
inductive Argument where
  | word (w : Text)
  | switch (s : Switch) (joined? : Option Text)
  | endOfSwitches
  | unknown
  deriving DecidableEq, Repr

namespace Argument

/-- A switch in its long form, behind two dashes. -/
def ofLong (allowed : List Switch) (t : Text) : Argument :=
  let name := t.takeWhile (· != '=')
  match allowed.find? fun s => s.long == name, t.dropWhile (· != '=') with
  | some s, '=' :: v => .switch s (some v)
  | some s, _ => .switch s none
  | none, _ => .unknown

/-- A switch in its short form, behind one dash. What follows the letter of a
switch that takes no value is not looked at: there is only one, and it ends
reading. -/
def ofShort (allowed : List Switch) (c : Char) (t : Text) : Argument :=
  match allowed.find? fun s => s.short? == some c with
  | none => .unknown
  | some s =>
    match s.takesValue, t with
    | true, '=' :: v => .switch s (some v)
    | true, d :: v => .switch s (some (d :: v))
    | _, _ => .switch s none

/-- What an argument is, where some switches are allowed. A single dash is a
word. -/
def classify (allowed : List Switch) : Text → Argument
  | ['-', '-'] => .endOfSwitches
  | '-' :: '-' :: t => ofLong allowed t
  | '-' :: c :: t => ofShort allowed c t
  | w => .word w

end Argument

/-- Why reading arguments stops early. -/
inductive Halt where
  | version
  | misuse
  deriving DecidableEq, Repr

/-- The outcome of reading that stops early. -/
def Halt.outcome : Halt → Outcome
  | .version => .success "replfeed 0.1.0\n".toList
  | .misuse => ⟨2, [], none⟩

/-- Takes in a switch; one that needs a value and has none waits for it. -/
def Given.switch (g : Given) (s : Switch) (joined? : Option Text) :
    Except Halt (Given × Option Switch) :=
  if s.takesValue then
    match joined? with
    | none => .ok (g, some s)
    | some v =>
      match g.add? s v with
      | some g => .ok (g, none)
      | none => .error .misuse
  else if s = .version then .error (if joined?.isSome then .misuse else .version)
  else
    match joined?, g.add? s [] with
    | none, some g => .ok (g, none)
    | _, _ => .error .misuse

/-- Reads arguments where some switches are allowed, while `waiting?` waits for
its value. Without `takesWord` a word ends reading; it is left with what follows
it. -/
def Given.read (allowed : List Switch) (takesWord : Bool) (g : Given) (waiting? : Option Switch) :
    List Text → Except Halt (Given × List Text)
  | [] => if waiting?.isSome then .error .misuse else .ok (g, [])
  | a :: rest =>
    match waiting?, Argument.classify allowed a with
    | some s, .word v =>
      match g.add? s v with
      | some g => read allowed takesWord g none rest
      | none => .error .misuse
    | some _, _ => .error .misuse
    | none, .word w =>
      if takesWord then
        match g.addWord? w with
        | some g => read allowed takesWord g none rest
        | none => .error .misuse
      else .ok (g, w :: rest)
    | none, .switch s joined? =>
      match g.switch s joined? with
      | .ok (g, waiting?) => read allowed takesWord g waiting? rest
      | .error h => .error h
    | none, .endOfSwitches =>
      match if takesWord then rest.foldlM (fun g w => g.addWord? w) g else none with
      | some g => .ok (g, [])
      | none => .error .misuse
    | none, .unknown => .error .misuse

namespace Command

/-- The commands by name, each with the switches it takes. -/
def switches? (name : Text) : Option (List Switch) :=
  if name = "normalize".toList then some [.config, .lineEnding, .noMerge, .onError]
  else if name = "tokens".toList then some [.config, .format]
  else if name = "statements".toList then some [.config, .format, .noMerge]
  else none

/-- The command of a name with what was given to it. -/
def ofGiven? (name : Text) (g : Given) : Option Command := do
  let lineEnding? ← g.read? .lineEnding LineEnding.named?
  let onError? ← g.read? .onError ErrorPolicy.named?
  let format := (← g.read? .format Format.named?).getD .simple
  if name = "normalize".toList then return .normalize lineEnding? (g.has .noMerge) onError?
  else if name = "tokens".toList then return .tokens format
  else return .statements format (g.has .noMerge)

end Command

namespace Invocation

def ofHalt (h : Halt) : Invocation := .ended h.outcome

/-- What a command asks for, `outer` having been given before its name. -/
def ofCommand (outer : Given) (name : Text) (args : List Text) : Invocation :=
  match Command.switches? name with
  | none => ofHalt .misuse
  | some allowed =>
    match Given.read allowed true .nothing none args with
    | .error h => ofHalt h
    | .ok (g, _) =>
      match Command.ofGiven? name g with
      | none => ofHalt .misuse
      | some command => .request ⟨(g.value? .config).or (outer.value? .config), g.word?, command⟩

/-- What all arguments ask for. -/
def parse (args : List Text) : Invocation :=
  match Given.read [.config, .version] false .nothing none args with
  | .error h => ofHalt h
  | .ok (_, []) => ofHalt .misuse
  | .ok (outer, name :: rest) => ofCommand outer name rest

end Invocation

end Offside
