import HiccupReader.Clojure.SyntaxError
import HiccupReader.Proofs.Clojure.Pending
import Mathlib.Data.List.Sublists

/-! The text of a message. A closing delimiter stands in it just if it is among the goals. -/

namespace HiccupReader.Clojure

def Bracket.expected : Bracket → Expected
  | round => .closingParen
  | square => .closingBracket
  | curly => .closingBrace

def Shows (message : String) (b : Bracket) : Prop := b.expected.text.toList <:+: message.toList

instance (message : String) (b : Bracket) : Decidable (Shows message b) :=
  inferInstanceAs (Decidable (b.expected.text.toList <:+: message.toList))

namespace Expected

def letters : Expected → List Char
  | closingParen => ['\x27', ')', '\x27']
  | closingBracket => ['\x27', ']', '\x27']
  | openingBrace => ['\x27', '\x7b', '\x27']
  | closingBrace => ['\x27', '\x7d', '\x27']
  | endOfInput => ['e', 'n', 'd', ' ', 'o', 'f', ' ', 'i', 'n', 'p', 'u', 't']
  | form => ['f', 'o', 'r', 'm']

theorem toList_text (e : Expected) : e.text.toList = e.letters := by
  cases e <;> decide +kernel

end Expected

/-- The message as characters, which are faster to compute with. -/
def lettersOf : List Expected → List Char
  | [] => "unexpected input".toList
  | [e] => "expected ".toList ++ e.letters
  | es => "expected one of ".toList ++ [',', ' '].intercalate (es.map Expected.letters)

theorem toList_describe (es : List Expected) : (describe es).toList = lettersOf es := by
  have hcomma : ", ".toList = [',', ' '] := by decide +kernel
  match es with
  | [] => rfl
  | [e] =>
    have htext : describe [e] = "expected " ++ e.text := rfl
    rw [htext, String.toList_append, e.toList_text]
    rfl
  | e :: e' :: es =>
    have htext : describe (e :: e' :: es) =
        "expected one of " ++ ", ".intercalate ((e :: e' :: es).map Expected.text) := rfl
    have hletters : String.toList ∘ Expected.text = Expected.letters := funext Expected.toList_text
    rw [htext, String.toList_append, String.toList_intercalate, hcomma, List.map_map, hletters]
    rfl

theorem shows_describe_iff {es : List Expected} (h : es.Sublist Expected.all) (b : Bracket) :
    Shows (describe es) b ↔ b.expected ∈ es := by
  have cases : ∀ es ∈ Expected.all.sublists, ∀ b ∈ [Bracket.round, .square, .curly],
      (b.expected.letters <:+: lettersOf es ↔ b.expected ∈ es) := by
    decide +kernel
  rw [Shows, Expected.toList_text, toList_describe]
  exact cases es (List.mem_sublists.2 h) b (by cases b <;> decide)

theorem expected_eq_iff {goal : Goal} {b : Bracket} :
    goal.expected = b.expected ↔ goal = .symbol (.token b.closer) := by
  constructor
  · intro h
    unfold Goal.expected at h
    split at h <;> cases b <;> first | rfl | cases h
  · rintro rfl
    cases b <;> rfl

theorem shows_goals_iff (goals : List Goal) (b : Bracket) :
    Shows (describe (expectedOf goals)) b ↔ Goal.symbol (.token b.closer) ∈ goals := by
  rw [expectedOf, shows_describe_iff List.filter_sublist, List.mem_filter, List.any_eq_true]
  have hmem : b.expected ∈ Expected.all := by cases b <;> decide
  simp only [decide_eq_true_eq, expected_eq_iff, hmem, true_and, exists_eq_right]

end HiccupReader.Clojure
