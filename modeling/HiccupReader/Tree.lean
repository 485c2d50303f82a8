import HiccupReader.Rose
import HiccupReader.Span

/-! Concrete parse trees. A leaf is a token with its text; an inner node is the match of a rule.
Both name their rule by its index in a rule table and say which bytes they cover. -/

namespace HiccupReader

structure Token where
  rule : Nat
  text : String
  span : Span
  deriving DecidableEq

structure RuleMatch where
  rule : Nat
  span : Span
  deriving DecidableEq

abbrev Tree := Rose RuleMatch Token

namespace Tree

def rule : Tree → Nat
  | .leaf token => token.rule
  | .node found _ => found.rule

def span : Tree → Span
  | .leaf token => token.span
  | .node found _ => found.span

def tokens (tree : Tree) : List Token := Rose.walk [tree]

theorem tokens_eq_leaves (tree : Tree) : tree.tokens = tree.leaves := by
  simp [tokens, Rose.walk_eq_leavesAll, Rose.leavesAll]

end Tree
end HiccupReader
