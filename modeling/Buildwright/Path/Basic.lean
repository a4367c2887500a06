/-!
# Paths

A path is a text of names separated by `/`. The text is kept exactly as it was
written, because it is printed that way; the *components* are the view under
which two spellings of a path are compared: repeated separators and inner `.`
steps do not count, a leading `.`, every `..` and a leading `/` do.

## Contents

* `Component` — one step of a path, ordered root, `.`, `..`, names;
* `Path.components` — the view; `Path.Same` compares under it;
* `Path.join`, `Path.parent?`, `Path.stripPrefix?`, `Path.fileName?`,
  `Path.extension?` — the operations, each defined on the text.
-/

namespace Buildwright

/-- One step of a path. -/
inductive Component where
  /-- The leading `/` of an absolute path. -/
  | root
  /-- A leading `.`. -/
  | current
  | parent
  /-- A step into the entry called `name`. -/
  | name (name : String)
deriving DecidableEq, Repr, Inhabited

namespace Component

/-- Kinds come in the order root, `.`, `..`, name. -/
def rank : Component → Nat
  | root => 0
  | current => 1
  | parent => 2
  | name _ => 3

/-- Components are ordered by kind, names among themselves as texts. -/
def lt : Component → Component → Bool
  | name a, name b => a < b
  | a, b => a.rank < b.rank

/-- The text of a component inside a path. -/
def text : Component → String
  | root => "/"
  | current => "."
  | parent => ".."
  | name n => n

/-- Whether the component is an ordinary name. -/
def isName : Component → Bool
  | name _ => true
  | _ => false

/-- Component lists are ordered lexicographically, a proper beginning first. -/
def listLt : List Component → List Component → Bool
  | _, [] => false
  | [], _ :: _ => true
  | a :: as, b :: bs => if a = b then listLt as bs else a.lt b

end Component

/-- A path as written. -/
structure Path where
  text : String
deriving DecidableEq, Repr, Inhabited

namespace Path

instance : ToString Path := ⟨Path.text⟩

/-- A component together with the half-open range of characters it covers. -/
structure Piece where
  component : Component
  start : Nat
  stop : Nat
deriving DecidableEq, Repr

/-- The piece that a word between separators gives, if it counts: an empty word
    and a `.` that does not begin the path are skipped. -/
def pieceOf? (start : Nat) (word : List Char) : Option Piece :=
  if word = [] then none
  else if word = ['.'] then
    if start = 0 then some ⟨.current, start, start + 1⟩ else none
  else if word = ['.', '.'] then some ⟨.parent, start, start + 2⟩
  else some ⟨.name (String.ofList word), start, start + word.length⟩

/-- The pieces of a list of words, the first of which starts at `start`. -/
def wordPieces : Nat → List (List Char) → List Piece
  | _, [] => []
  | start, word :: words =>
    (pieceOf? start word).toList ++ wordPieces (start + word.length + 1) words

/-- The pieces of a path text from left to right. -/
def piecesOf (cs : List Char) : List Piece :=
  (if cs.head? = some '/' then [⟨.root, 0, 1⟩] else []) ++ wordPieces 0 (cs.splitOn '/')

/-- The pieces of a path from left to right. -/
def pieces (p : Path) : List Piece :=
  piecesOf p.text.toList

/-- The components of a path from left to right. -/
def components (p : Path) : List Component :=
  p.pieces.map Piece.component

/-- Two paths are the same when their components are. -/
def Same (p q : Path) : Prop :=
  p.components = q.components

instance (p q : Path) : Decidable (p.Same q) :=
  inferInstanceAs (Decidable (_ = _))

/-- Paths are ordered by their components. -/
def lt (p q : Path) : Bool :=
  Component.listLt p.components q.components

/-- Whether the path starts at the root of the file system. -/
def isAbsolute (p : Path) : Bool :=
  p.text.toList.head? = some '/'

/-- The part of the text from `start` up to `stop`. -/
def slice (p : Path) (start stop : Nat) : Path :=
  ⟨String.ofList ((p.text.toList.take stop).drop start)⟩

def ofComponents : List Component → Path
  | .root :: rest => ⟨"/" ++ "/".intercalate (rest.map Component.text)⟩
  | cs => ⟨"/".intercalate (cs.map Component.text)⟩

/-- Continue `p` with `q`. An absolute `q` replaces `p`; otherwise one separator
    stands between them, unless `p` is empty or brings its own. -/
def join (p q : Path) : Path :=
  if q.isAbsolute || p.text.isEmpty then q
  else if p.text.toList.getLast? = some '/' then ⟨p.text ++ q.text⟩
  else ⟨p.text ++ "/" ++ q.text⟩

/-- The path without its last component, as a beginning of the text. There is
    none for the empty path and for the root. -/
def parent? (p : Path) : Option Path :=
  match p.pieces.getLast? with
  | none => none
  | some last =>
    if last.component = .root then none
    else
      match p.pieces.dropLast.getLast? with
      | none => some ⟨""⟩
      | some before => some (p.slice 0 before.stop)

/-- What remains of `p` below `base`, as a part of the text of `p`; nothing if
    the components of `p` do not begin with those of `base`. -/
def stripPrefix? (p base : Path) : Option Path :=
  let pieces := p.pieces
  let count := base.components.length
  if p.components.take count = base.components then
    match (pieces.drop count).head?, pieces.getLast? with
    | some first, some last => some (p.slice first.start last.stop)
    | _, _ => some ⟨""⟩
  else none

/-- The last component, if it is a name. -/
def fileName? (p : Path) : Option String :=
  match p.components.getLast? with
  | some (.name n) => some n
  | _ => none

/-- The text after the last dot of the file name. A name whose only dot is its
    first character has no extension. -/
def extension? (p : Path) : Option String :=
  p.fileName?.bind fun n =>
    match (n.toList.splitOn '.').reverse with
    | last :: before :: rest =>
      if before = [] ∧ rest = [] then none else some (String.ofList last)
    | _ => none

end Path

end Buildwright
