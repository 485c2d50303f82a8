import HiccupReader.Proofs.Rose
import HiccupReader.Tree

/-! Trees and tokens without their places. -/

namespace HiccupReader

def Token.content (token : Token) : Nat × String := (token.rule, token.text)

def Tree.content (tree : Tree) : Rose Nat (Nat × String) := tree.map RuleMatch.rule Token.content

theorem Tree.content_eq {tree other : Tree}
    (hrules : tree.map RuleMatch.rule Token.rule = other.map RuleMatch.rule Token.rule)
    (htokens : tree.tokens.map Token.content = other.tokens.map Token.content) :
    tree.content = other.content := by
  have hrule : ∀ t : Tree, t.content.map id Prod.fst = t.map RuleMatch.rule Token.rule :=
    fun t => Rose.map_map ..
  apply Rose.eq_of_leaves (g := Prod.fst)
  · rw [hrule, hrule, hrules]
  · rw [content, content, Rose.leaves_map, Rose.leaves_map, ← tokens_eq_leaves, ← tokens_eq_leaves,
      htokens]

end HiccupReader
