/-
File trees: the files and directories that a command works on.  A tree
is searched by absolute paths without dots; a path as it is written is
followed name by name, so that every name before the last has to be a
directory.
-/
import SketchCompiler.Path
import SketchCompiler.Text.Newline
import SketchCompiler.Text.Utf8

namespace SketchCompiler

/-- What a file holds: a text, or bytes that encode none. -/
inductive Content where
  | text (s : String)
  | notText (fault : Text.Utf8Fault)
  deriving DecidableEq, Repr

/-- The content that bytes are. -/
def Content.ofBytes (bytes : List UInt8) : Content :=
  match Text.decodeUtf8 bytes with
  | .ok s => .text s
  | .error fault => .notText fault

/-- A file or a directory. -/
inductive Entry where
  | file (content : Content)
  | directory
  deriving DecidableEq, Repr

/-- Why a path cannot be read, written or made. -/
inductive FileFault where
  | notFound (path : Path)
  | fileExists (path : Path)
  | notDirectory (path : Path)
  | isDirectory (path : Path)
  | notText (fault : Text.Utf8Fault)
  deriving DecidableEq, Repr

/-- The wording of a fault. -/
def FileFault.message : FileFault → String
  | notFound p => "[Errno 2] No such file or directory: " ++ Text.quoted p.text
  | fileExists p => "[Errno 17] File exists: " ++ Text.quoted p.text
  | notDirectory p => "[Errno 20] Not a directory: " ++ Text.quoted p.text
  | isDirectory p => "[Errno 21] Is a directory: " ++ Text.quoted p.text
  | notText fault => fault.message

/-- Files and directories, each by the names that lead to it from the
root, and the directory that relative paths start from. -/
structure FileTree where
  home : Path
  entries : List (List String × Entry)
  deriving Repr

namespace FileTree

/-- What stands at the end of the names. -/
def entry? (t : FileTree) (names : List String) : Option Entry :=
  if names.isEmpty then some .directory else t.entries.lookup names

/-- Puts an entry at the end of the names, in the place of the one that
stood there. -/
def put (t : FileTree) (names : List String) (e : Entry) : FileTree :=
  if (t.entries.lookup names).isSome then
    { t with entries := t.entries.map fun (n, old) => (n, if n == names then e else old) }
  else { t with entries := t.entries ++ [(names, e)] }

/-- Something stands at an absolute path. -/
def exists? (t : FileTree) (p : Path) : Bool :=
  (t.entry? p.names).isSome

/-- The directory that names lead to, one after the other. -/
inductive Step where
  | reached (names : List String)
  | missing
  | blocked
  deriving DecidableEq, Repr

/-- Follows names; every place that is left has to be a directory. -/
def follow (t : FileTree) : List String → List String → Step
  | place, [] => .reached place
  | place, name :: rest =>
    match t.entry? place with
    | none => .missing
    | some (.file _) => .blocked
    | some .directory =>
      if name == ".." then t.follow place.dropLast rest else t.follow (place ++ [name]) rest

/-- Where a path as it is written leads to. -/
def locate (t : FileTree) (p : Path) : Step :=
  t.follow [] (t.home.join p).names

/-- The text of a file, its lines ending in line feeds. -/
def read (t : FileTree) (p : Path) : Except FileFault String :=
  match t.locate p with
  | .missing => .error (.notFound p)
  | .blocked => .error (.notDirectory p)
  | .reached place =>
    match t.entry? place with
    | none => .error (.notFound p)
    | some .directory => .error (.isDirectory p)
    | some (.file (.notText fault)) => .error (.notText fault)
    | some (.file (.text s)) => .ok (Text.withLineFeeds s)

/-- Writes a text to a file in an existing directory. -/
def write (t : FileTree) (p : Path) (text : String) : Except FileFault FileTree :=
  match t.locate p with
  | .missing => .error (.notFound p)
  | .blocked => .error (.notDirectory p)
  | .reached place =>
    match t.entry? place with
    | some .directory => .error (.isDirectory p)
    | _ => .ok (t.put place (.file (.text text)))

/-- The outcome of a change, and the tree behind it, which a fault leaves
as it was. -/
def orUnchanged (t : FileTree) : Except FileFault FileTree → Except FileFault Unit × FileTree
  | .ok changed => (.ok (), changed)
  | .error fault => (.error fault, t)

/-- Makes the directory at the end of a path, whose parents exist;
`none` if one does not. -/
def makeLast (t : FileTree) (p : Path) : Option (Except FileFault FileTree) :=
  match t.locate p with
  | .missing => none
  | .blocked => some (.error (.notDirectory p))
  | .reached place =>
    match t.entry? place with
    | none => some (.ok (t.put place .directory))
    | some .directory => some (.ok t)
    | some (.file _) => some (.error (.fileExists p))

/-- Makes a directory and the parents that are missing.  The names are
given last first.  Parents that were made stay when a fault follows. -/
def makeFrom (t : FileTree) (root : String) : List String → Except FileFault Unit × FileTree
  | [] => (.ok (), t)
  | name :: above =>
    let p : Path := ⟨root, (name :: above).reverse⟩
    match t.makeLast p with
    | some made => t.orUnchanged made
    | none =>
      match t.makeFrom root above with
      | (.error fault, t) => (.error fault, t)
      | (.ok (), t) => t.orUnchanged ((t.makeLast p).getD (.error (.notFound p)))

/-- Makes a directory and the parents that are missing. -/
def makeDirectory (t : FileTree) (p : Path) : Except FileFault Unit × FileTree :=
  t.makeFrom p.root p.names.reverse

/-- Puts the directories above an entry into the tree, the outermost
first. -/
def withParents (t : FileTree) (names : List String) : FileTree :=
  ((List.range names.length).drop 1).foldl (fun t n =>
    if t.entry? (names.take n) |>.isSome then t else t.put (names.take n) .directory) t

/-- Adds an entry and the directories above it. -/
def add (t : FileTree) (p : Path) (e : Entry) : FileTree :=
  let names := (t.home.resolve p).names
  (t.withParents names).put names e

/-- A tree that holds its home directory only. -/
def empty (home : Path) : FileTree :=
  let t : FileTree := { home, entries := [] }
  (t.withParents home.names).put home.names .directory

/-- The files of a tree that another one lacks or holds differently. -/
def changedFrom (t old : FileTree) : List (List String × Content) :=
  t.entries.filterMap fun
    | (names, .file content) =>
      if old.entries.lookup names = some (.file content) then none else some (names, content)
    | (_, .directory) => none

/-- The directories of a tree that another one lacks. -/
def directoriesSince (t old : FileTree) : List (List String) :=
  t.entries.filterMap fun
    | (names, .directory) => if (old.entry? names).isSome then none else some names
    | (_, .file _) => none

end FileTree

end SketchCompiler
