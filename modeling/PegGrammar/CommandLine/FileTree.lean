import PegGrammar.CommandLine

namespace PegGrammar.CommandLine

/-- Files and directories, by the names on the way to them from the working directory. Paths hold
no detours: `..` stands only in front, and `/` in front for the root of the file system. -/
structure FileTree where
  /-- The content of each file; one that is not text has none. -/
  files : List (List String × Option String)
  directories : List (List String)

namespace FileTree

inductive Place where
  | directory (path : List String)
  | file (content : Option String)

def start (path : String) : List String := if path.startsWith "/" then ["/"] else []

def parent (path : List String) : List String :=
  match path.getLast? with
  | none => [".."]
  | some ".." => path ++ [".."]
  | some "/" => path
  | some _ => path.dropLast

def enter (path : List String) : String → List String
  | "" => path
  | "." => path
  | ".." => parent path
  | name => path ++ [name]

def visited (path : List String) : List String → List (List String)
  | [] => [path]
  | name :: names => path :: visited (enter path name) names

/-- The tree after writing some files one after another, with the directories they need. -/
def ofFiles (files : List (String × Option String)) : FileTree where
  files := files.reverse.map fun (path, content) =>
    ((path.splitOn "/").foldl enter (start path), content)
  directories := files.flatMap fun (path, _) => visited (start path) (path.splitOn "/").dropLast

def step (tree : FileTree) : Place → String → Except ReadFailure Place
  | .file _, _ => .error .notDirectory
  | .directory path, name =>
    let next := enter path name
    if name ∈ ["", ".", ".."] then .ok (.directory next)
    else if 255 < name.utf8ByteSize then .error .nameTooLong
    else
      match tree.files.lookup next with
      | some content => .ok (.file content)
      | none => if next ∈ tree.directories then .ok (.directory next) else .error .missing

def read (tree : FileTree) (path : String) : Except ReadFailure String := do
  if 4096 ≤ path.utf8ByteSize then throw .nameTooLong
  match ← (path.splitOn "/").foldlM tree.step (.directory (start path)) with
  | .file (some content) => return content
  | .file none => throw .notUtf8
  | .directory _ => throw .directory

end FileTree

end PegGrammar.CommandLine
