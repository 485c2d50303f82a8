/-! Trivia is what may stand between tokens: blanks, commas, and comments from `;` or `#!` to the
end of their line. -/

namespace HiccupReader.Clojure

def isLineEnd (c : Char) : Bool := c == '\n' || c == '\r'

def isBlank (c : Char) : Bool := isLineEnd c || c == ' ' || c == '\t' || c == ','

def opensComment : List Char → Bool
  | ';' :: _ => true
  | '#' :: '!' :: _ => true
  | _ => false

/-- Parts a text into the trivia in front and the rest. `inComment` says that a comment is open. -/
def splitTrivia : (inComment : Bool) → List Char → List Char × List Char
  | _, [] => ([], [])
  | inComment, c :: cs =>
    if inComment then (splitTrivia (!isLineEnd c) cs).map (c :: ·) id
    else if isBlank c then (splitTrivia false cs).map (c :: ·) id
    else if opensComment (c :: cs) then (splitTrivia true cs).map (c :: ·) id
    else ([], c :: cs)

theorem splitTrivia_append (inComment : Bool) (cs : List Char) :
    (splitTrivia inComment cs).1 ++ (splitTrivia inComment cs).2 = cs := by
  fun_induction splitTrivia inComment cs <;> simp_all

end HiccupReader.Clojure
