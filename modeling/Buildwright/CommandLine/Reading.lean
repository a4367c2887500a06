import Buildwright.CommandLine.Grammar

/-!
# Reading command lines

Words are read from left to right. Values wait until the next slot begins or the words
end, and are checked then; so a mistake in the shape of a later word can be found before
a mistake in a value.

## Contents

* `Reading` — what has been read;
* `Reading.settle` — the check of waiting values;
* `Grammar.step` — one word;
* `Grammar.finish` — the end of the words;
* `Grammar.read` — all words of a command without commands below it.
-/

namespace Buildwright.CommandLine

/-- Values that are not checked yet. -/
structure Pending where
  slot : Slot
  values : List String
  /-- Whether the next plain word is one of them. -/
  awaits : Bool
deriving DecidableEq, Repr

/-- What has been read of a command line. -/
structure Reading where
  /-- The slots that are filled, each with a value; a switch has an empty one. -/
  filled : List (String × String) := []
  pending : Option Pending := none
  /-- Whether all words are plain from here on. -/
  literal : Bool := false
  /-- The number of positional words that are complete. -/
  place : Nat := 0
deriving DecidableEq, Repr, Inhabited

namespace Reading

def values (r : Reading) (slot : String) : List String :=
  (r.filled.filter (·.1 = slot)).map Prod.snd

def value? (r : Reading) (slot : String) : Option String :=
  r.filled.lookup slot

def has (r : Reading) (slot : String) : Bool :=
  (r.value? slot).isSome

/-- Whether the next plain word is the value of an option. -/
def awaits (r : Reading) : Bool :=
  match r.pending with
  | some p => p.awaits
  | none => false

def fill (r : Reading) (slot : Slot) (values : List String) : Except Usage Reading := do
  if values = [] then throw (.missingValue slot.name)
  if slot.role = .single && r.has slot.name then throw (.repeated slot.name)
  values.forM fun v => slot.form.check slot.name v
  return { r with filled := r.filled ++ values.map (slot.name, ·) }

/-- Fill the slot whose values wait. -/
def settle (r : Reading) : Except Usage Reading :=
  match r.pending with
  | none => .ok r
  | some p => { r with pending := none }.fill p.slot p.values

/-- Begin an option whose value is the next word. -/
def begin_ (r : Reading) (slot : Slot) : Except Usage Reading := do
  let r ← r.settle
  return { r with pending := some ⟨slot, [], true⟩ }

/-- Read an option that comes with its value. -/
def give (r : Reading) (slot : Slot) (value : String) : Except Usage Reading := do
  (← r.settle).fill slot [value]

/-- Read an option without a value. -/
def mark (r : Reading) (slot : Slot) : Except Usage Reading := do
  let r ← r.settle
  match slot.role with
  | .help => throw .help
  | .version => throw .version
  | _ =>
    if r.has slot.name then throw (.repeated slot.name)
    else return { r with filled := r.filled ++ [(slot.name, "")] }

/-- Take a word as the value of the option that awaits it. -/
def accept (r : Reading) (word : String) : Reading :=
  { r with pending := r.pending.map fun p => { p with values := p.values ++ [word], awaits := false } }

/-- Take a word as a value of a positional slot. -/
def place_ (r : Reading) (slot : Slot) (word : String) : Except Usage Reading :=
  let literal := r.literal || slot.takesRest
  match r.pending with
  | some p =>
    if slot.role = .many ∧ p.slot = slot then
      .ok { r with literal, pending := some { p with values := p.values ++ [word] } }
    else go literal
  | none => go literal
where
  /-- The first word for the slot. -/
  go (literal : Bool) : Except Usage Reading := do
    let r ← r.settle
    return { r with
      literal
      pending := some ⟨slot, [word], false⟩
      place := if slot.role = .many then r.place else r.place + 1 }

end Reading

namespace Grammar

/-- Why a plain word has no place. Behind two dashes not even a command has one. -/
def stray (g : Grammar) (r : Reading) (word : String) : Usage :=
  if g.commands = [] ∨ (r.literal ∧ word ∈ g.commands) then .unknownArgument word
  else .unknownCommand word

/-- Read a plain word that is not the value of an option. -/
def positional (g : Grammar) (r : Reading) (word : String) : Except Usage Reading :=
  match g.positionals[r.place]? with
  | some slot => r.place_ slot word
  | none => .error (g.stray r word)

def long (g : Grammar) (r : Reading) (name : String) (value : Option String) :
    Except Usage Reading :=
  match g.option? name with
  | none => .error (.unknownArgument ("--" ++ name))
  | some slot =>
    match slot.role.takesValue, value with
    | true, some v => r.give slot v
    | true, none => r.begin_ slot
    | false, some _ => .error (.unexpectedValue name)
    | false, none => r.mark slot

/-- Read the letters behind a dash. What follows the letter of an option with a value is
    the value, with or without an equals sign. -/
def letters (g : Grammar) (r : Reading) : List Char → Except Usage Reading
  | [] => .ok r
  | c :: rest =>
    match g.letter? c with
    | none => .error (.unknownArgument (String.ofList ['-', c]))
    | some slot =>
      if slot.role.takesValue then
        match rest with
        | [] => r.begin_ slot
        | '=' :: value => r.give slot (String.ofList value)
        | value => r.give slot (String.ofList value)
      else do g.letters (← r.mark slot) rest

def step (g : Grammar) (r : Reading) (word : String) : Except Usage Reading :=
  if r.literal then g.positional r word
  else
    match Word.ofText word with
    | .escape => .ok { r with literal := true }
    | .long name value => g.long r name value
    | .letters cs => g.letters r cs
    | .plain => if r.awaits then .ok (r.accept word) else g.positional r word

/-- End the words: the values that wait are checked, and nothing required is missing. -/
def finish (g : Grammar) (r : Reading) : Except Usage Reading := do
  let r ← r.settle
  match g.positionals.find? fun slot => slot.required && !r.has slot.name with
  | some slot => throw (.missingArgument slot.name)
  | none => return r

/-- Read the words of a command that has no commands below it. -/
def read (g : Grammar) (words : List String) : Except Usage Reading := do
  g.finish (← words.foldlM g.step {})

end Grammar

end Buildwright.CommandLine
