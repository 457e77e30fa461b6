import DiceScript.Host
import DiceScript.Table

/-!
# Where paths lead

A path is followed name by name from one directory of plain files, or from the root of the system.
Of the rest of the system only the directories in the root, the null device and the full device are
known.
-/

namespace DiceScript.Path

/-- A directory in which a name is looked up. -/
inductive Place where
  /-- The directory of files. -/
  | here
  /-- A directory above it. -/
  | above
  | root
  /-- The directory of devices. -/
  | devices
  /-- Any other directory in the root. -/
  | standard
deriving DecidableEq

inductive Entry where
  | directory (p : Place)
  | file (name : String)
  /-- Takes everything, and gives nothing. -/
  | nullDevice
  /-- Has no room for anything. -/
  | fullDevice
deriving DecidableEq

namespace Place

def parent : Place → Place
  | here | above => above
  | root | devices | standard => root

/-- The directories in the root, apart from that of devices. -/
def standardDirectories : List String :=
  ["bin", "boot", "etc", "home", "lib", "media", "mnt", "opt", "proc", "root", "run", "sbin", "srv",
    "sys", "tmp", "usr", "var"]

/-- What stands in a directory under a name of at most 255 bytes. -/
def find (files : Table String Bytes) (p : Place) (name : String) : Except SystemError Entry :=
  if name = "." then .ok (.directory p)
  else if name = ".." then .ok (.directory p.parent)
  else if 255 < (Utf8.encode name).length then .error .nameTooLong
  else
    match p with
    | here => if (files.find? name).isSome then .ok (.file name) else .error .notFound
    | root =>
      if name = "dev" then .ok (.directory devices)
      else if name ∈ standardDirectories then .ok (.directory standard)
      else .error .notFound
    | devices =>
      if name = "null" then .ok .nullDevice
      else if name = "full" then .ok .fullDevice
      else .error .notFound
    | above | standard => .error .notFound

def follow (files : Table String Bytes) (p : Place) :
    List String → Except SystemError (Place × Option String)
  | [] => .ok (p, none)
  | [name] => .ok (p, some name)
  | name :: names =>
    match p.find files name with
    | .ok (.directory p) => p.follow files names
    | .ok _ => .error .notADirectory
    | .error e => .error e

end Place

/-- The names between the slashes. -/
def names (path : List Char) : List String :=
  match _h : cutFirst '/' path with
  | (name, none) => kept name
  | (name, some rest) => kept name ++ names rest
termination_by path.length
decreasing_by exact cutFirst_length_lt _h
where
  kept (name : List Char) : List String :=
    if name = [] then [] else [String.ofList name]

/-- The directory that a path leads into, and its last name there. -/
def locate (files : Table String Bytes) (path : String) :
    Except HostError (Place × Option String) :=
  let cs := path.toList
  if cs = [] then .error (.system .notFound)
  else if cs.contains '\x00' then .error .nulInPath
  else if 4095 < (Utf8.encode path).length then .error (.system .nameTooLong)
  else
    let start := if cs.head? = some '/' then Place.root else .here
    (start.follow files (names cs)).mapError .system

def endsInSlash (path : String) : Bool :=
  path.toList.getLast? = some '/'

/-- What is opened for reading. Only a directory may have a slash after its name. -/
def toRead (files : Table String Bytes) (path : String) : Except HostError Entry :=
  match locate files path with
  | .error e => .error e
  | .ok (p, none) => .ok (.directory p)
  | .ok (p, some name) =>
    match p.find files name with
    | .error e => .error (.system e)
    | .ok (.directory p) => .ok (.directory p)
    | .ok entry => if endsInSlash path then .error (.system .notADirectory) else .ok entry

/-- What is opened for writing. A slash after the last name asks for a directory, which cannot be
written, and a file that is missing can be created in the directory of files. -/
def toWrite (files : Table String Bytes) (path : String) : Except HostError Entry :=
  match locate files path with
  | .error e => .error e
  | .ok (_, none) => .error (.system .isADirectory)
  | .ok (p, some name) =>
    if endsInSlash path then .error (.system .isADirectory)
    else
      match p.find files name with
      | .ok (.directory _) => .error (.system .isADirectory)
      | .ok entry => .ok entry
      | .error e =>
        if e = .notFound ∧ p = .here then .ok (.file name) else .error (.system e)

end DiceScript.Path
