/-!
# Glob patterns

A pattern is compiled into tokens: characters that stand for themselves, `?` for any
character, `*` for any characters, `[…]` and `[!…]` for one character of a class or
outside it, and `**` for any directories.

## Contents

* `Token`, `Pattern`, `Problem`;
* `Pattern.compile` — from a text to its tokens, or what is wrong with it and where;
* `Pattern.accepts` — whether a pattern matches a name;
* `escape` — the pattern that matches a text and nothing else.
-/

namespace Buildwright.Glob

/-- A range of characters in a class; both ends belong to it. -/
structure CharRange where
  first : Char
  last : Char
deriving DecidableEq, Repr

def CharRange.has (r : CharRange) (c : Char) : Bool :=
  r.first ≤ c && c ≤ r.last

/-- What a part of a pattern stands for. -/
inductive Token where
  | char (c : Char)
  | anyChar
  | anyText
  | anyDirectories
  | within (ranges : List CharRange)
  | except (ranges : List CharRange)
deriving DecidableEq, Repr

/-- What can be wrong with a pattern. -/
inductive Mistake where
  | tooManyStars
  | starsInName
  | openRange
deriving DecidableEq, Repr

def Mistake.text : Mistake → String
  | tooManyStars => "wildcards are either regular `*` or recursive `**`"
  | starsInName => "recursive wildcards must form a single path component"
  | openRange => "invalid range pattern"

/-- A mistake and its place in the pattern. -/
structure Problem where
  position : Nat
  mistake : Mistake
deriving DecidableEq, Repr

def Problem.message (p : Problem) : String :=
  "Pattern syntax error near position " ++ toString p.position ++ ": " ++ p.mistake.text

/-- The ranges of a class: `a-z`, or single characters. -/
def ranges : List Char → List CharRange
  | a :: '-' :: b :: rest => ⟨a, b⟩ :: ranges rest
  | a :: rest => ⟨a, a⟩ :: ranges rest
  | [] => []

/-- The text of a class after its opening bracket, split at the closing one, which may
    not be the first character. -/
def splitClass? : List Char → Option (List Char × List Char)
  | [] => none
  | first :: rest =>
    let inside := rest.takeWhile (· ≠ ']')
    match rest.dropWhile (· ≠ ']') with
    | [] => none
    | _ :: after => some (first :: inside, after)

/-- The class at the front of a text that begins behind an opening bracket, with the
    rest and the number of characters that the class takes. -/
def classAt? : List Char → Option (Token × List Char × Nat)
  | '!' :: rest =>
    (splitClass? rest).map fun p => (.except (ranges p.1), p.2, p.1.length + 2)
  | rest => (splitClass? rest).map fun p => (.within (ranges p.1), p.2, p.1.length + 1)

/-- Compile the rest of a pattern that begins at `position`; `before` is the character
    in front of it. -/
def compileFrom : Nat → Nat → Option Char → List Char → Except Problem (List Token)
  | 0, _, _, _ => .ok []
  | _, _, _, [] => .ok []
  | fuel + 1, position, before, c :: rest =>
    if c = '*' then
      let stars := (rest.takeWhile (· = '*')).length + 1
      let after := rest.drop (stars - 1)
      if stars > 2 then .error ⟨position + 2, .tooManyStars⟩
      else if stars = 2 then
        match before with
        | some b =>
          if b ≠ '/' then .error ⟨position - 1, .starsInName⟩
          else directories fuel position after
        | none => directories fuel position after
      else do return .anyText :: (← compileFrom fuel (position + 1) (some c) after)
    else if c = '?' then
      do return .anyChar :: (← compileFrom fuel (position + 1) (some c) rest)
    else if c = '[' then
      match classAt? rest with
      | none => .error ⟨position, .openRange⟩
      | some (t, after, n) =>
        do return t :: (← compileFrom fuel (position + n + 1) (some ']') after)
    else do return .char c :: (← compileFrom fuel (position + 1) (some c) rest)
where
  /-- Two stars at `position` with `after` behind them: they stand alone between
      separators. -/
  directories (fuel position : Nat) : List Char → Except Problem (List Token)
    | [] => .ok [.anyDirectories]
    | c :: rest =>
      if c ≠ '/' then .error ⟨position + 2, .starsInName⟩
      else do return .anyDirectories :: (← compileFrom fuel (position + 3) (some c) rest)

def compile (pattern : List Char) : Except Problem (List Token) :=
  compileFrom (pattern.length + 1) 0 none pattern

/-- Whether tokens match a name as a whole. -/
def accepts : List Token → List Char → Bool
  | [], name => name.isEmpty
  | .char c :: ts, x :: name => c = x && accepts ts name
  | .anyChar :: ts, _ :: name => accepts ts name
  | .within rs :: ts, x :: name => rs.any (·.has x) && accepts ts name
  | .except rs :: ts, x :: name => !rs.any (·.has x) && accepts ts name
  | .char _ :: _, [] => false
  | .anyChar :: _, [] => false
  | .within _ :: _, [] => false
  | .except _ :: _, [] => false
  | .anyText :: ts, [] => accepts ts []
  | .anyText :: ts, x :: name => accepts ts (x :: name) || accepts (.anyText :: ts) name
  | .anyDirectories :: ts, [] => accepts ts []
  | .anyDirectories :: ts, x :: name =>
    accepts ts (x :: name) || accepts (.anyDirectories :: ts) name
termination_by ts name => (ts.length, name.length)

/-- The text that tokens stand for, if all of them stand for themselves. -/
def literal? (tokens : List Token) : Option (List Char) :=
  tokens.mapM fun
    | .char c => some c
    | _ => none

def isRecursive (tokens : List Token) : Bool :=
  tokens.contains .anyDirectories

/-- The pattern that matches a text and nothing else. -/
def escape (text : List Char) : List Char :=
  text.flatMap fun c =>
    if c = '?' ∨ c = '*' ∨ c = '[' ∨ c = ']' then ['[', c, ']'] else [c]

end Buildwright.Glob
