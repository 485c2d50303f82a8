import HiccupReader.Hiccup

/-! Several documents as one JSON value. One document stands for itself; any other number is an
object with the names as keys, in ascending order, where the last document of a name counts. -/

namespace HiccupReader.Documents

/-- Sets a member in members that are sorted by key. Keys are ordered by code points, which is
also the order of their UTF-8 bytes. -/
def setMember (key : String) (value : Json) : List (String × Json) → List (String × Json)
  | [] => [(key, value)]
  | (k, v) :: members =>
    if key < k then (key, value) :: (k, v) :: members
    else if key = k then (key, value) :: members
    else (k, v) :: setMember key value members

def members (documents : List (String × Hiccup)) : List (String × Json) :=
  documents.foldl (fun ms (name, h) => setMember name h.toJson ms) []

def toJson : List (String × Hiccup) → Json
  | [(_, h)] => h.toJson
  | documents => .object (members documents)

def text (documents : List (String × Hiccup)) (pretty : Bool) : String :=
  (toJson documents).text pretty

end HiccupReader.Documents
