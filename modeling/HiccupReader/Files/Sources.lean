import HiccupReader.Diagnostic
import HiccupReader.Files.Entry

/-! Finding sources. A path that names a file is kept whatever its name is. A folder is searched at
all depths for files with an extension of Clojure. The result is sorted, and of paths with the
same components the first one is kept. -/

namespace HiccupReader.Files

inductive SearchFault
  | missing (root : String)
  | closed (root folder : String) (fault : Fault)
  deriving DecidableEq

def SearchFault.diagnostic : SearchFault → Diagnostic
  | missing root => { kind := .io, message := "'" ++ root ++ "' does not exist" }
  | closed root folder fault =>
    { kind := .io
      message :=
        "failed to walk '" ++ root ++ "': IO error for operation on " ++ folder ++ ": " ++
          fault.words }

mutual

/-- The paths of the Clojure files at or below an entry, where `root` is the root of the search. A
folder whose path is too long cannot be opened. -/
def sourcesBelow (root path : String) : Entry → Except SearchFault (List String)
  | .file _ => .ok (if Path.isClojure path then [path] else [])
  | .folder entries =>
    if Path.isTooLong path then .error (.closed root path .nameTooLong)
    else sourcesAmong root path entries

def sourcesAmong (root path : String) :
    List (String × Entry) → Except SearchFault (List String)
  | [] => .ok []
  | (name, entry) :: entries => do
    let first ← sourcesBelow root (Path.join path name) entry
    let others ← sourcesAmong root path entries
    return first ++ others

end

def sourcesAt (world : World) (root : String) : Except SearchFault (List String) :=
  match world root with
  | .error _ => .error (.missing root)
  | .ok (.file _) => .ok [root]
  | .ok (.folder entries) => sourcesAmong root root entries

def sourcesOf (world : World) : List String → Except SearchFault (List String)
  | [] => .ok []
  | root :: roots => do
    let first ← sourcesAt world root
    let others ← sourcesOf world roots
    return first ++ others

def pathLe (a b : String) : Bool := Path.componentsLe (Path.components a) (Path.components b)

def samePath (a b : String) : Bool := Path.components a == Path.components b

def dropRepeats : List String → List String
  | [] => []
  | path :: paths =>
    match dropRepeats paths with
    | [] => [path]
    | next :: rest => if samePath path next then path :: rest else path :: next :: rest

def findSources (world : World) (roots : List String) : Except SearchFault (List String) :=
  (sourcesOf world roots).map fun paths => dropRepeats (paths.mergeSort pathLe)

end HiccupReader.Files
