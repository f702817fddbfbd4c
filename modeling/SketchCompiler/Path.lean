/-
Paths of files.  A path is a root and the names that follow it; a single
dot and doubled or trailing slashes leave no trace, while two dots are
kept until the path is resolved.
-/

namespace SketchCompiler

/-- A path.  The root is empty for a relative path, a slash for an
absolute one, and stays two slashes where it is written so. -/
structure Path where
  root : String
  names : List String
  deriving DecidableEq, Repr

namespace Path

/-- Cuts a text at its slashes; `name` holds the characters of the name
being read, last first. -/
def splitFrom (name : List Char) : List Char → List String
  | [] => [String.ofList name.reverse]
  | '/' :: rest => String.ofList name.reverse :: splitFrom [] rest
  | c :: rest => splitFrom (c :: name) rest

/-- The root of a written path. -/
def rootOf (text : String) : String :=
  match text.toList.takeWhile (· == '/') with
  | [] => ""
  | [_, _] => "//"
  | _ => "/"

/-- The path that a text names. -/
def ofString (text : String) : Path :=
  ⟨rootOf text, (splitFrom [] text.toList).filter fun name => name != "" && name != "."⟩

/-- The text of a path; the path without a root and names is a dot. -/
def text (p : Path) : String :=
  if p.root == "" && p.names.isEmpty then "." else p.root ++ "/".intercalate p.names

/-- The path `q` as seen from `p`. -/
def join (p q : Path) : Path :=
  if q.root == "" then ⟨p.root, p.names ++ q.names⟩ else q

/-- The path without its last name. -/
def parent (p : Path) : Path :=
  { p with names := p.names.dropLast }

/-- The last name of a path. -/
def name (p : Path) : String :=
  p.names.getLast?.getD ""

/-- Cuts a name in front of its last dot; a dot at either end does not
count. -/
def splitName (name : String) : String × String :=
  let behind := (name.toList.reverse.takeWhile (· != '.')).reverse
  let front := name.toList.take (name.toList.length - behind.length - 1)
  if behind.isEmpty || front.isEmpty then (name, "")
  else (String.ofList front, String.ofList ('.' :: behind))

/-- The ending of the last name, from its last dot on. -/
def suffix (p : Path) : String :=
  (splitName p.name).2

/-- The last name without its ending. -/
def stem (p : Path) : String :=
  (splitName p.name).1

/-- Follows names from a list of names, two dots leading back by one. -/
def collapse : List String → List String → List String
  | known, [] => known
  | known, name :: rest =>
    if name == ".." then collapse known.dropLast rest else collapse (known ++ [name]) rest

/-- The absolute path without dots, as seen from a directory. -/
def resolve (directory p : Path) : Path :=
  ⟨"/", collapse [] (directory.join p).names⟩

/-- The path lies in the directory or is the directory itself. -/
def isWithin (p directory : Path) : Bool :=
  p.root == directory.root && directory.names.isPrefixOf p.names

end Path

end SketchCompiler
