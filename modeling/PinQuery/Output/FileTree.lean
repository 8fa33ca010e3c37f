import PinQuery.Ordered
import PinQuery.Text.Line

/-!
# File trees

A file tree holds files and directories under their paths. A path is the list of names from the
root, and a tree has a working directory from which relative path texts start.

* `FileTree.resolve` follows a path text name by name. Every name but the last has to be entered,
  so it has to be a directory; `.` stays and `..` goes up.
* `FileTree.node` is what stands at a path text.
* `FileTree.readText` is the text of a file.
* `FileTree.store` puts a file at a path text in one step: all of it, or nothing changes. The file is
  drafted in the directory of the path text and then moved, and `FileTree.storePath` says when there
  is a place for both.
* `FileTree.listing` is everything below the working directory.
-/

namespace PinQuery

/-- A path from the root, as its names. -/
abbrev Path := List String

/-- What stands at a path. -/
inductive FileNode
  | file (bytes : ByteArray)
  | directory

/-- Whether two nodes are the same, byte by byte. -/
def FileNode.same : FileNode → FileNode → Bool
  | .file bytes, .file bytes' => bytes.toList == bytes'.toList
  | .directory, .directory => true
  | _, _ => false

/-- Why the file system refuses an operation. -/
inductive FileFailure
  | notFound
  | busy
  | notDirectory
  | isDirectory
  | nameTooLong
  | invalidName
  | invalidText
deriving DecidableEq, Repr

/-- How a failure is called. -/
def FileFailure.message : FileFailure → String
  | .notFound => "No such file or directory (os error 2)"
  | .busy => "Device or resource busy (os error 16)"
  | .notDirectory => "Not a directory (os error 20)"
  | .isDirectory => "Is a directory (os error 21)"
  | .nameTooLong => "File name too long (os error 36)"
  | .invalidName => "file name contained an unexpected NUL byte"
  | .invalidText => "stream did not contain valid UTF-8"

/-- Files and directories in the order of their paths, and a working directory. The root is always
there and is not among the entries. -/
structure FileTree where
  workingDirectory : Path
  entries : List (Path × FileNode)
  increasing : entries.Pairwise (·.1 < ·.1)

namespace FileTree

/-- What stands at a path. -/
def get? (tree : FileTree) (path : Path) : Option FileNode :=
  if path = [] then some .directory
  else (tree.entries.find? fun entry => entry.1 == path).map (·.2)

/-- The tree with a node at a path, in place of what stood there. -/
def put (tree : FileTree) (path : Path) (node : FileNode) : FileTree :=
  { tree with
    entries := insertBy Prod.fst (path, node) tree.entries
    increasing := pairwise_insertBy (path, node) tree.increasing }

/-! ## Path texts -/

/-- The names of a path text, those that change nothing included. -/
def pathNames (path : String) : List String := (Text.split '/' path.toList).map String.ofList

/-- Whether a path text starts from the root. -/
def isAbsolute (path : String) : Bool := path.toList.head? == some '/'

/-- Whether a path text ends in a slash, so that it can only stand for a directory. -/
def endsInSlash (path : String) : Bool := path.toList.getLast? == some '/'

/-- The longest path text in bytes. -/
def maxText : Nat := 4095

/-- The longest name in bytes. -/
def maxName : Nat := 255

/-- A path text that may be looked up at all, whatever the tree holds. -/
def checkText (path : String) : Except FileFailure Unit :=
  if path.isEmpty then .error .notFound
  else if path.toList.contains '\x00' then .error .invalidName
  else if maxText < Text.byteLength path.toList then .error .nameTooLong
  else .ok ()

/-- A name that may stand in a directory. -/
def checkName (name : String) : Except FileFailure Unit :=
  if maxName < Text.byteLength name.toList then .error .nameTooLong else .ok ()

/-! ## Looking up -/

/-- One name further from a path, which has to be a directory. -/
def enter (tree : FileTree) (path : Path) (name : String) : Except FileFailure Path :=
  match tree.get? path with
  | none => .error .notFound
  | some (.file _) => .error .notDirectory
  | some .directory =>
    if name == "" || name == "." then .ok path
    else if name == ".." then .ok path.dropLast
    else (checkName name).map fun _ => path ++ [name]

/-- The path that names lead to. -/
def follow (tree : FileTree) (start : Path) (names : List String) : Except FileFailure Path :=
  names.foldlM tree.enter start

/-- Where a path text starts. -/
def startOf (tree : FileTree) (path : String) : Path :=
  if isAbsolute path then [] else tree.workingDirectory

/-- The path that a path text leads to; nothing need stand there. -/
def resolve (tree : FileTree) (path : String) : Except FileFailure Path := do
  checkText path
  tree.follow (tree.startOf path) (pathNames path)

/-- What stands at a path text. -/
def node (tree : FileTree) (path : String) : Except FileFailure FileNode := do
  match tree.get? (← tree.resolve path) with
  | some node => .ok node
  | none => .error .notFound

/-- Whether something stands at a path text. -/
def contains (tree : FileTree) (path : String) : Bool := (tree.node path).isOk

/-! ## Reading -/

/-- The text of a file. -/
def readText (tree : FileTree) (path : String) : Except FileFailure String := do
  match ← tree.node path with
  | .directory => .error .isDirectory
  | .file bytes =>
    match String.fromUTF8? bytes with
    | some text => .ok text
    | none => .error .invalidText

/-! ## Writing -/

/-- Why a file cannot be stored. -/
inductive StoreFailure
  /-- Something stands there already. -/
  | exists_
  | failed (failure : FileFailure)
deriving DecidableEq, Repr

/-- The names of a path text without those at the end that change nothing. A dot that opens the text
stays. -/
def trimIdle : List String → List String
  | [] => []
  | first :: rest =>
    match (rest.reverse.dropWhile fun name => name == "" || name == ".").reverse with
    | [] => if first == "" then [] else [first]
    | rest => first :: rest

/-- The text of the directory in which the file of a path text is drafted: the path text up to its
last name, where names that change nothing do not count. -/
def draftDirectory (path : String) : String :=
  match trimIdle (trimIdle (pathNames path)).dropLast with
  | [] => if isAbsolute path then "/" else "."
  | names => "/".intercalate names

/-- A text followed by one more name. -/
def joinText (path name : String) : String :=
  if endsInSlash path then path ++ name else path ++ "/" ++ name

/-- The name of a draft. -/
def draftName : String := ".draft-new"

/-- The text of the path at which the file of a path text is drafted, always from the root. -/
def draftText (tree : FileTree) (path : String) : String :=
  let directory := draftDirectory path
  let start := "/" ++ "/".intercalate tree.workingDirectory
  joinText (if isAbsolute directory then directory else joinText start directory) draftName

/-- The last name of a path text. A text of slashes has none. -/
def lastName? (path : String) : Option String := ((pathNames path).filter (· != "")).getLast?

/-- Whether a name stands for an entry of a directory, and not for a directory on the way. -/
def isEntryName (name : String) : Bool := name != "." && name != ".."

/-- The directory in which the last name of a path text is looked up. -/
def directoryOf (tree : FileTree) (path : String) : Except FileFailure Path := do
  checkText path
  let names := (pathNames path).filter (· != "")
  let directory ← tree.follow (tree.startOf path) names.dropLast
  tree.enter directory "."

/-- The path of a name in a directory, if a file may be put there. A directory is not replaced, a
file only if `replace` says so, and a name with a slash after it is no place for a file. -/
def place (tree : FileTree) (directory : Path) (name : String) (slash replace : Bool) :
    Except StoreFailure Path :=
  match checkName name, tree.get? (directory ++ [name]) with
  | .error failure, _ => .error (.failed failure)
  | .ok _, none => if slash then .error (.failed .notDirectory) else .ok (directory ++ [name])
  | .ok _, some node =>
    if !replace then .error .exists_
    else if slash then .error (.failed .notDirectory)
    else
      match node with
      | .directory => .error (.failed .isDirectory)
      | .file _ => .ok (directory ++ [name])

/-- The path at which the file of a path text is stored. The file is drafted first and then moved,
so there has to be a place for the draft and one for the file; the two are looked up in different
directories when the path text ends in a dot. -/
def storePath (tree : FileTree) (path : String) (replace : Bool) : Except StoreFailure Path := do
  let _ ← (tree.resolve (tree.draftText path)).mapError .failed
  let directory ← (tree.directoryOf path).mapError .failed
  match (lastName? path).filter isEntryName with
  | none => .error (if replace then .failed .busy else .exists_)
  | some name => tree.place directory name (endsInSlash path) replace

/-- The tree with a file at a path text. -/
def store (tree : FileTree) (path : String) (bytes : ByteArray) (replace : Bool) :
    Except StoreFailure FileTree :=
  (tree.storePath path replace).map fun place => tree.put place (.file bytes)

/-! ## Making and showing trees -/

/-- The tree with a directory for each of some names, one inside the other. -/
def makeDirectories (tree : FileTree) (start : Path) : List String → FileTree
  | [] => tree
  | name :: names => makeDirectories (tree.put (start ++ [name]) .directory) (start ++ [name]) names

/-- The tree with a working directory and nothing in it. -/
def emptyAt (workingDirectory : Path) : FileTree :=
  makeDirectories ⟨workingDirectory, [], .nil⟩ [] workingDirectory

/-- The tree with a node below the working directory; missing directories are made. -/
def add (tree : FileTree) (path : String) (node : FileNode) : FileTree :=
  let names := (pathNames path).filter (· != "")
  (tree.makeDirectories tree.workingDirectory names.dropLast).put
    (tree.workingDirectory ++ names) node

/-- Everything below the working directory, a directory before what it holds and names in order. -/
def listing (tree : FileTree) : List (Path × FileNode) :=
  tree.entries.filterMap fun (path, node) =>
    match tree.workingDirectory.isPrefixOf? path with
    | some (name :: names) => some (name :: names, node)
    | _ => none

end FileTree

end PinQuery
