/-! A folder of files as paths see it. A file name with slashes puts the file into folders of its
own. Around the folder there are the usual folders at the root and the null device. -/

namespace FrontEnd.CommandLine

/-- Why a file cannot be read. -/
inductive ReadFault where
  | noSuchFile
  | isFolder
  | notFolder
  | nameTooLong
  | forbidden
  | notText
  | other (message : String)
deriving DecidableEq, Repr, Inhabited

def ReadFault.message : ReadFault → String
  | noSuchFile => "No such file or directory (os error 2)"
  | isFolder => "Is a directory (os error 21)"
  | notFolder => "Not a directory (os error 20)"
  | nameTooLong => "File name too long (os error 36)"
  | forbidden => "Permission denied (os error 13)"
  | notText => "stream did not contain valid UTF-8"
  | other message => message

/-- The files by the parts of their names. -/
structure Folder where
  files : List (List String × ByteArray)

/-- Where a path leads: to a file, to a folder below or equal to this one, to one at the root, or
above this one. -/
inductive Spot where
  | file (contents : ByteArray)
  | folder (path : List String)
  | system (path : List String)
  | above

/-- The folders at the root. -/
def systemFolders : List String :=
  ["bin", "boot", "dev", "etc", "home", "lib", "media", "mnt", "opt", "proc", "root", "run", "sbin",
    "srv", "sys", "tmp", "usr", "var"]

/-- A longer name has no place in any folder. -/
def longestName : Nat := 255

/-- A longer path is not followed at all. -/
def longestPath : Nat := 4095

namespace Folder

def ofFiles (files : List (String × ByteArray)) : Folder :=
  ⟨files.map fun (name, contents) => (name.splitOn "/", contents)⟩

/-- What the name `part` stands for in the folder at `path`. -/
def find (F : Folder) (path : List String) (part : String) : Except ReadFault Spot :=
  let path := path ++ [part]
  match F.files.lookup path with
  | some contents => .ok (.file contents)
  | none =>
    if F.files.any fun (name, _) => path.isPrefixOf name then .ok (.folder path)
    else .error .noSuchFile

/-- What the name `part` stands for in the folder at `path` from the root. -/
def findSystem (path : List String) (part : String) : Except ReadFault Spot :=
  if path ++ [part] = ["dev", "null"] then .ok (.file .empty)
  else if path.isEmpty && systemFolders.contains part then .ok (.system [part])
  else .error .noSuchFile

/-- Follows one part of a path. -/
def step (F : Folder) (spot : Spot) (part : String) : Except ReadFault Spot :=
  match spot with
  | .file _ => .error .notFolder
  | _ =>
    if part = "" || part = "." then .ok spot
    else if part = ".." then
      match spot with
      | .folder path => .ok (if path.isEmpty then .above else .folder path.dropLast)
      | .system path => .ok (.system path.dropLast)
      | _ => .ok .above
    else if longestName < part.utf8ByteSize then .error .nameTooLong
    else
      match spot with
      | .folder path => F.find path part
      | .system path => findSystem path part
      | _ => .error .noSuchFile

/-- The contents of the file that a path leads to. -/
def read (F : Folder) (path : String) : Except ReadFault ByteArray := do
  if longestPath < path.utf8ByteSize then throw .nameTooLong
  let start : Spot := if path.startsWith "/" then .system [] else .folder []
  match ← (path.splitOn "/").foldlM F.step start with
  | .file contents => pure contents
  | _ => throw .isFolder

end Folder

end FrontEnd.CommandLine
