import HiccupReader.Files.Path

/-! Files and folders, and how a path finds its way through them. As in paths, names are texts of
Unicode characters, and an entry whose name is no UTF-8 is left out. -/

namespace HiccupReader.Files

inductive Entry
  | file (bytes : ByteArray)
  | folder (entries : List (String × Entry))

/-- Why a path cannot be read. `system` holds the words of the operating system for any trouble
that has no name here. -/
inductive Fault
  | notFound
  | notFolder
  | isFolder
  | nameTooLong
  | nulInPath
  | notText
  | system (words : String)
  deriving DecidableEq

def Fault.words : Fault → String
  | notFound => "No such file or directory (os error 2)"
  | notFolder => "Not a directory (os error 20)"
  | isFolder => "Is a directory (os error 21)"
  | nameTooLong => "File name too long (os error 36)"
  | nulInPath => "file name contained an unexpected NUL byte"
  | notText => "stream did not contain valid UTF-8"
  | system words => words

abbrev World := String → Except Fault Entry

def World.empty : World := fun _ => .error .notFound

namespace Entry

/-- What lies outside the folder at the top. Nothing is known of it, so it holds nothing. -/
def outside : Entry := folder []

/-- One step of a path, from an entry and the folders around it, the innermost first. A step up
from the top leads outside. An empty step stays where it is, but only folders can be stepped
from. -/
def step : Entry × List Entry → String → Except Fault (Entry × List Entry)
  | (file _, _), _ => .error .notFolder
  | (folder entries, around), segment =>
    if segment = "" ∨ segment = "." then .ok (folder entries, around)
    else if segment = ".." then
      match around with
      | [] => .ok (outside, [])
      | outer :: around => .ok (outer, around)
    else if Path.nameLimit < segment.utf8ByteSize then .error .nameTooLong
    else
      match entries.lookup segment with
      | none => .error .notFound
      | some entry => .ok (entry, folder entries :: around)

/-- What stands at a path within a folder. No path is empty. A path that is too long as a whole
leads nowhere, whatever its steps are. A path with a slash at the front starts outside. -/
def resolve (top : Entry) (path : String) : Except Fault Entry :=
  if path.contains '\x00' then .error .nulInPath
  else if path = "" then .error .notFound
  else if Path.isTooLong path then .error .nameTooLong
  else
    let start := if path.startsWith "/" then outside else top
    ((Path.segments path).foldlM step (start, [])).map Prod.fst

end Entry

def World.within (top : Entry) : World := top.resolve

namespace Entry

mutual

def paths (path : String) : Entry → List (String × Entry)
  | file bytes => [(path, file bytes)]
  | folder entries => (path, folder entries) :: pathsAmong path entries

def pathsAmong (path : String) : List (String × Entry) → List (String × Entry)
  | [] => []
  | (name, entry) :: entries =>
    paths (Path.join path name) entry ++ pathsAmong path entries

end

end Entry

def World.ofFindings (findings : List (String × Except Fault Entry)) : World := fun path =>
  let known := findings.flatMap fun (root, found) =>
    match found with
    | .error fault => [(root, .error fault)]
    | .ok entry => (entry.paths root).map fun (path, entry) => (path, .ok entry)
  (known.lookup path).getD (.error .notFound)

def decode (bytes : ByteArray) : Except Fault String :=
  match String.fromUTF8? bytes with
  | some text => .ok text
  | none => .error .notText

def World.readText (world : World) (path : String) : Except Fault String :=
  match world path with
  | .error fault => .error fault
  | .ok (.folder _) => .error .isFolder
  | .ok (.file bytes) => decode bytes

end HiccupReader.Files
