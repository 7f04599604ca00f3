/-!
# File trees

The files and folders below one folder, and what reading a file and making folders does there. A
path is followed part by part: `.` and empty parts stay, `..` goes up, and anything else must be a
folder unless it is the last part.
-/

namespace WhileLang

set_option autoImplicit false

inductive FileError where
  | notFound
  | alreadyExists
  | notAFolder
  | isAFolder
  | notText
  | noSpace
  /-- Any other refusal, in the words of the system. -/
  | other (message : String)
  deriving DecidableEq, Repr

def FileError.message : FileError → String
  | notFound => "No such file or directory (os error 2)"
  | alreadyExists => "File exists (os error 17)"
  | notAFolder => "Not a directory (os error 20)"
  | isAFolder => "Is a directory (os error 21)"
  | notText => "stream did not contain valid UTF-8"
  | noSpace => "No space left on device (os error 28)"
  | other message => message

/-- A name inside a folder. The empty folder is the present one. -/
def joinPath (folder name : String) : String :=
  if folder.isEmpty || folder.endsWith "/" then folder ++ name else folder ++ "/" ++ name

structure FileTree where
  /-- Files by their path from the root. The folders they lie in exist. -/
  files : List (List String × ByteArray)
  /-- Folders besides those that hold a file. -/
  folders : List (List String)

namespace FileTree

inductive Entry where
  | folder (path : List String)
  /-- A file, and whether slashes follow its name. -/
  | file (path : List String) (content : ByteArray) (slashed : Bool)
  /-- Nothing, but the folder it would lie in exists. -/
  | absent (path : List String)

def isFolder (tree : FileTree) (path : List String) : Bool :=
  path.isEmpty || tree.folders.any path.isPrefixOf ||
    tree.files.any fun file => path.isPrefixOf file.1 && path ≠ file.1

def follow (tree : FileTree) (folder : List String) : List String → Except FileError Entry
  | [] => .ok (.folder folder)
  | part :: parts =>
    if part = "" || part = "." then tree.follow folder parts
    else if part = ".." then tree.follow folder.dropLast parts
    else
      let path := folder ++ [part]
      let closed := parts.all (· = "")
      match tree.files.lookup path with
      | some content =>
        if closed then .ok (.file path content !parts.isEmpty) else .error .notAFolder
      | none =>
        if tree.isFolder path then tree.follow path parts
        else if closed then .ok (.absent path)
        else .error .notFound

/-- Paths from the root of the system lead out of the tree. -/
def find (tree : FileTree) (path : String) : Except FileError Entry :=
  if path.toList.contains '\x00' then
    .error (.other "file name contained an unexpected NUL byte")
  else if path.isEmpty || path.startsWith "/" then .error .notFound
  else tree.follow [] (path.splitToList (· = '/'))

def readText (tree : FileTree) (path : String) : Except FileError String := do
  match ← tree.find path with
  | .folder _ => throw .isAFolder
  | .absent _ => throw .notFound
  | .file _ content slashed =>
    if slashed then throw .notAFolder
    else
      match String.fromUTF8? content with
      | some text => return text
      | none => throw .notText

def leadsToFolder (tree : FileTree) (path : String) : Bool :=
  match tree.find path with
  | .ok (.folder _) => true
  | _ => false

def leadsToFile (tree : FileTree) (path : String) : Bool :=
  match tree.find path with
  | .ok (.file _ _ slashed) => !slashed
  | _ => false

def makeFolder (tree : FileTree) (path : String) : Except FileError FileTree := do
  match ← tree.find path with
  | .absent made => return { tree with folders := tree.folders ++ [made] }
  | _ => throw .alreadyExists

/-- Makes a folder inside one that is already tried for. A folder that exists is as good as a new
one. -/
def settleFolder (tree : FileTree) (path : String) : Except FileError FileTree :=
  match tree.makeFolder path with
  | .ok made => .ok made
  | .error refusal => if tree.leadsToFolder path then .ok tree else .error refusal

/-- Makes the folder `path` and first, if its own folder is missing, that one. The parts of the
paths above it are given with the last one first. -/
def makeFolderBelow (tree : FileTree) (path : String) : List String → Except FileError FileTree
  | [] => tree.settleFolder path
  | part :: above =>
    match tree.settleFolder path with
    | .error .notFound => do
      let tree ← tree.makeFolderBelow ("/".intercalate (part :: above).reverse) above
      tree.settleFolder path
    | outcome => outcome

/-- The parts of a path that count: empty ones do not, nor does `.` except in front. -/
def properParts (path : String) : List String :=
  match path.splitToList (· = '/') with
  | "." :: parts => "." :: parts.filter (fun part => part ≠ "" && part ≠ ".")
  | parts => parts.filter fun part => part ≠ "" && part ≠ "."

/-- Makes a folder and all folders above it. The empty path is the present folder. -/
def makeFolders (tree : FileTree) (path : String) : Except FileError FileTree :=
  if path.isEmpty then .ok tree
  else tree.makeFolderBelow path (properParts path).reverse.tail

def openFile (tree : FileTree) (path : String) : Except FileError FileTree := do
  match ← tree.find path with
  | .folder _ => throw .isAFolder
  | .file _ _ slashed => if slashed then throw .notAFolder else return tree
  | .absent made => return { tree with files := tree.files ++ [(made, ByteArray.empty)] }

end FileTree

end WhileLang
