/-!
# File trees

Files and directories under a root, named by paths. A path is a row of components between slashes;
an empty component and `.` stand for where they are, `..` for the directory above, and above the root
is the root. A path with a slash in front is counted from the root, any other from the working
directory, which may lie anywhere below the root. A path that ends in a slash can only name a
directory. There are no links, so a path's components are the whole of what it means.

`FileStore` is what a program needs of a file system, whatever keeps the files: `FileTree` keeps them
as a value, so what a program does to them is a function.
-/

namespace HexConfig

/-- What is wrong with a path, or with what it names. -/
inductive FileError where
  /-- Nothing has the name, or the directory it would be in is not there. -/
  | notFound
  /-- The name is in use. -/
  | busy
  /-- What is treated as a directory is a file. -/
  | notDirectory
  /-- What is treated as a file is a directory. -/
  | isDirectory
  /-- A path is longer than a path may be, or a component of it longer than a name may be. -/
  | nameTooLong
  /-- The content is not UTF-8 text. -/
  | notText
  /-- Anything else that a file system may have to say. -/
  | other (words : String)
  deriving DecidableEq

/-- The words for a file error. -/
def FileError.message : FileError → String
  | notFound => "No such file or directory (os error 2)"
  | busy => "Device or resource busy (os error 16)"
  | notDirectory => "Not a directory (os error 20)"
  | isDirectory => "Is a directory (os error 21)"
  | nameTooLong => "File name too long (os error 36)"
  | notText => "stream did not contain valid UTF-8"
  | other words => words

/-- What a program needs of a file system. -/
class FileStore (m : Type → Type) where
  /-- Whether a path names anything. -/
  holds : String → m Bool
  /-- The content of a file. -/
  read : String → m (Except FileError ByteArray)
  /-- Makes a file of this content, over the content it had. -/
  write : String → ByteArray → m (Except FileError Unit)
  /-- Gives the file of the first path the name of the second, over the file that had it. -/
  rename : String → String → m (Except FileError Unit)
  /-- Removes a file, if there is one. -/
  remove : String → m Unit

/-! ## Paths -/

namespace Path

/-- The pieces of a text between slashes. -/
def pieces : List Char → List (List Char)
  | [] => [[]]
  | c :: cs =>
    match pieces cs with
    | [] => [[c]]
    | p :: ps => if c = '/' then [] :: p :: ps else (c :: p) :: ps

/-- The pieces of a path between slashes. -/
def components (path : String) : List String := (pieces path.toList).map String.ofList

/-- Whether a path is counted from the root. -/
def isAbsolute (path : String) : Bool := path.toList.head? = some '/'

/-- Whether a component stands for where it is. -/
def isHere (component : String) : Bool := component = "" || component = "."

/-- Components with slashes between them. -/
def join (components : List String) : String := String.intercalate "/" components

/-- The components that matter, without those that stand for where they are. -/
def essential (path : String) : List String := (components path).filter (!isHere ·)

/-- A row of components without those at its end that stand for where they are. The first one stays:
an empty one in front is the root, and a path may be spelled from `.` on. -/
def trimEnd : List String → List String
  | [] => []
  | first :: rest => first :: (rest.reverse.dropWhile isHere).reverse

/-- The path beside a path, in the same directory, whose name has `ending` after it. The directory is
spelled as the path spells it, up to the last component that matters. A path that ends in no name,
but in the root, in `..` or in a lone `.`, has none beside it: there the ending itself is the name,
inside what the path names. -/
def beside (path ending : String) : String :=
  let parts := components path
  let named := trimEnd parts
  let name := named.getLastD ""
  if isHere name ∨ name = ".." then
    join ((if parts.getLastD "" = "" then parts.dropLast else parts) ++ [ending])
  else join (trimEnd named.dropLast ++ [name ++ ending])

end Path

/-! ## Trees -/

/-- What a name in a file tree stands for. -/
inductive FileNode where
  | file (content : ByteArray)
  | directory

/-- Where in a tree something is: the components from the root on, all of them names. -/
abbrev Location := List String

/-- Files and directories by their locations, and the directory that paths are counted from if they
have no slash in front. The root is a directory and is not listed. -/
structure FileTree where
  workingDirectory : Location
  nodes : List (Location × FileNode)

namespace FileTree

/-- What is at a location. -/
def find? (t : FileTree) (loc : Location) : Option FileNode :=
  if loc = [] then some .directory else (t.nodes.find? (·.1 = loc)).map (·.2)

/-- Takes away what is at a location. -/
def erase (t : FileTree) (loc : Location) : FileTree :=
  { t with nodes := t.nodes.filter (·.1 ≠ loc) }

/-- Puts something at a location, in place of what is there. -/
def put (t : FileTree) (loc : Location) (node : FileNode) : FileTree :=
  { t with nodes := (loc, node) :: (t.erase loc).nodes }

/-- The bytes a name may have at most. -/
def nameBytes : Nat := 255

/-- The bytes a path may have at most. -/
def pathBytes : Nat := 4095

/-- Where a row of components leads from a directory, all of them directories. -/
def walk (t : FileTree) (loc : Location) : List String → Except FileError Location
  | [] => .ok loc
  | c :: cs =>
    if Path.isHere c then t.walk loc cs
    else if c = ".." then t.walk loc.dropLast cs
    else if nameBytes < c.utf8ByteSize then .error .nameTooLong
    else
      match t.find? (loc ++ [c]) with
      | none => .error .notFound
      | some (.file _) => .error .notDirectory
      | some .directory => t.walk (loc ++ [c]) cs

/-- What a path comes down to. -/
inductive Target where
  /-- A directory that is there, named without a name of its own. -/
  | here (loc : Location)
  /-- A name in a directory that is there, and whether only a directory will do for it. -/
  | name (parent : Location) (name : String) (slash : Bool)

/-- The directory that a path is counted from. -/
def origin (t : FileTree) (path : String) : Location :=
  if Path.isAbsolute path then [] else t.workingDirectory

/-- What a path comes down to in a tree. The empty path names nothing. -/
def target (t : FileTree) (path : String) : Except FileError Target :=
  let parts := Path.components path
  let named := (parts.reverse.dropWhile (· = "")).reverse
  if path = "" then .error .notFound
  else if pathBytes < path.utf8ByteSize then .error .nameTooLong
  else
    match named.getLast? with
    | none => .ok (.here [])
    | some name =>
      if Path.isHere name ∨ name = ".." then (t.walk (t.origin path) named).map .here
      else do
        let parent ← t.walk (t.origin path) named.dropLast
        if nameBytes < name.utf8ByteSize then .error .nameTooLong
        else .ok (.name parent name (named.length < parts.length))

/-- What a path names. -/
def node (t : FileTree) (path : String) : Except FileError FileNode := do
  match ← t.target path with
  | .here _ => .ok .directory
  | .name parent name slash =>
    match t.find? (parent ++ [name]) with
    | none => .error .notFound
    | some (.file content) => if slash then .error .notDirectory else .ok (.file content)
    | some .directory => .ok .directory

/-- Whether a path names anything. -/
def holds (t : FileTree) (path : String) : Bool := (t.node path).isOk

/-- The content of a file. -/
def read (t : FileTree) (path : String) : Except FileError ByteArray := do
  match ← t.node path with
  | .file content => .ok content
  | .directory => .error .isDirectory

/-- The tree with a file of this content, over the content it had. -/
def write (t : FileTree) (path : String) (content : ByteArray) : Except FileError FileTree := do
  match ← t.target path with
  | .here _ => .error .isDirectory
  | .name parent name slash =>
    match t.find? (parent ++ [name]) with
    | some .directory => .error .isDirectory
    | _ => if slash then .error .isDirectory else .ok (t.put (parent ++ [name]) (.file content))

/-- The tree with a file moved from one name to another, over the file that had it. -/
def rename (t : FileTree) (source destination : String) : Except FileError FileTree := do
  match ← t.target source, ← t.target destination with
  | .name fromParent fromName _, .name toParent toName slash =>
    match t.find? (fromParent ++ [fromName]) with
    | some (.file content) =>
      if slash then .error .notDirectory
      else
        match t.find? (toParent ++ [toName]) with
        | some .directory => .error .isDirectory
        | _ => .ok ((t.erase (fromParent ++ [fromName])).put (toParent ++ [toName]) (.file content))
    | some .directory => .error (.other "directories are not moved")
    | none => .error .notFound
  | _, _ => .error .busy

/-- The tree without a file, if the path names one. -/
def remove (t : FileTree) (path : String) : FileTree :=
  match t.target path with
  | .ok (.name parent name false) =>
    match t.find? (parent ++ [name]) with
    | some (.file _) => t.erase (parent ++ [name])
    | _ => t
  | _ => t

/-- A change to a tree that may be refused, and then leaves it as it is. -/
def attempt (change : FileTree → Except FileError FileTree) :
    StateM FileTree (Except FileError Unit) := fun t =>
  match change t with
  | .ok changed => (.ok (), changed)
  | .error e => (.error e, t)

instance : FileStore (StateM FileTree) where
  holds path := fun t => (t.holds path, t)
  read path := fun t => (t.read path, t)
  write path content := attempt (·.write path content)
  rename source destination := attempt (·.rename source destination)
  remove path := fun t => ((), t.remove path)

/-! ## A tree to work in -/

/-- The directories that every system has. -/
def systemDirectories : List String :=
  ["bin", "boot", "dev", "etc", "home", "lib", "media", "mnt", "opt", "proc", "root", "run", "sbin",
    "srv", "sys", "tmp", "usr", "var"]

/-- The files of every system that give nothing to read: the null device, and an input to which
nothing is given. -/
def silentFiles : List Location := [["dev", "null"], ["dev", "stdin"]]

/-- The tree of a system with a new directory to work in. The new directory is a temporary one, and
no path leads into it by its name, which has a slash in it: whoever works there knows it as `.` only,
and what is in it is not met on any way from the root. -/
def new : FileTree where
  workingDirectory := ["tmp", "/"]
  nodes :=
    (["tmp", "/"], .directory) :: (systemDirectories.map fun name => ([name], .directory))
      ++ silentFiles.map fun loc => (loc, .file .empty)

/-- The tree with something in the working directory at a path, and with directories for all above
it. -/
def create (t : FileTree) (path : String) (node : FileNode) : FileTree :=
  let parts := Path.essential path
  let above := (List.range parts.length).map fun n => t.workingDirectory ++ parts.take n
  (above.foldl (fun t d => if (t.find? d).isSome then t else t.put d .directory) t).put
    (t.workingDirectory ++ parts) node

/-- What is in the working directory, by locations counted from there. -/
def contents (t : FileTree) : List (Location × FileNode) :=
  t.nodes.filterMap fun (loc, node) =>
    if t.workingDirectory.isPrefixOf loc ∧ loc ≠ t.workingDirectory then
      some (loc.drop t.workingDirectory.length, node)
    else none

end FileTree

end HexConfig
