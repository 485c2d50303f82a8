import HiccupReader.RuleTable
import HiccupReader.Text.Basic
import HiccupReader.Tree

/-! Listings of tokens and of rules, one line each, in columns. -/

namespace HiccupReader.Listing

open Text

/-- Rule name, byte range and text of a token. A rule outside the table has the name `?`. -/
def tokenLine (table : RuleTable) (token : Token) : String :=
  padRight 16 ((table.name? token.rule).getD "?") ++ " " ++
    padLeft 5 (toString token.span.start) ++ ".." ++ padRight 5 (toString token.span.stop) ++
    " " ++ token.text ++ "\n"

def tokens (table : RuleTable) (tokens : List Token) : String :=
  String.join (tokens.map (tokenLine table))

def ruleLine (index : Nat) (entry : RuleEntry) : String :=
  padLeft 3 (toString index) ++ " " ++ padRight 20 entry.name ++ " " ++ entry.kind.label ++
    (if entry.passthrough then " passthrough" else "") ++ "\n"

def rules (table : RuleTable) : String :=
  String.join (table.toList.map fun (index, entry) => ruleLine index entry)

end HiccupReader.Listing
