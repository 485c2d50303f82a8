/-! Paths as texts. A path is compared by its components: doubled slashes, slashes at the end and
dots after the first component do not count. Paths are texts of Unicode characters: those with bytes
that are no UTF-8 are left out, and with them extensions that are no text and so none of Clojure. -/

namespace HiccupReader.Files

inductive Component
  | top
  | here
  | up
  | name (text : String)
  deriving DecidableEq

namespace Component

def rank : Component → Nat
  | top => 0
  | here => 1
  | up => 2
  | name _ => 3

def text : Component → String
  | name text => text
  | _ => ""

/-- Names are ordered by code points, which is also the order of their UTF-8 bytes. -/
def precedes (a b : Component) : Bool :=
  a.rank < b.rank || (a.rank == b.rank && a.text < b.text)

end Component

namespace Path

def segments (path : String) : List String :=
  (path.toList.splitOn '/').map String.ofList

def furtherComponents (segments : List String) : List Component :=
  segments.filterMap fun segment =>
    if segment = "" ∨ segment = "." then none
    else if segment = ".." then some .up
    else some (.name segment)

def components (path : String) : List Component :=
  match segments path with
  | [] | [""] => []
  | "" :: rest => .top :: furtherComponents rest
  | "." :: rest => .here :: furtherComponents rest
  | all => furtherComponents all

def componentsLe : List Component → List Component → Bool
  | [], _ => true
  | _ :: _, [] => false
  | a :: as, b :: bs => if a = b then componentsLe as bs else a.precedes b

def lastName? (path : String) : Option String :=
  match (components path).getLast? with
  | some (.name text) => some text
  | _ => none

/-- What stands after the last dot of a name. A dot at the front does not count. -/
def extensionOf? (name : String) : Option String :=
  let reversed := name.toList.reverse
  let extension := reversed.takeWhile (· != '.')
  match reversed.dropWhile (· != '.') with
  | '.' :: _ :: _ => some (String.ofList extension.reverse)
  | _ => none

def clojureExtensions : List String := ["clj", "cljs", "cljc", "edn"]

def isClojure (path : String) : Bool :=
  ((lastName? path).bind extensionOf?).any fun e => clojureExtensions.contains e

def nameLimit : Nat := 255

def limit : Nat := 4095

def isTooLong (path : String) : Bool := limit < path.utf8ByteSize

def join (folder name : String) : String :=
  if folder.endsWith "/" then folder ++ name else folder ++ "/" ++ name

end Path
end HiccupReader.Files
