import HiccupReader.Proofs.Clojure.Derivation
import HiccupReader.Proofs.Clojure.Spelling
import HiccupReader.Proofs.Tree

/-! The same text further on. What is read does not depend on how many bytes stand in front of it,
but for the spans, which are further on by as much. -/

namespace HiccupReader

def Span.shift (n : Nat) (span : Span) : Span := ⟨span.start + n, span.stop + n⟩

def Token.shift (n : Nat) (token : Token) : Token := { token with span := token.span.shift n }

def RuleMatch.shift (n : Nat) (found : RuleMatch) : RuleMatch :=
  { found with span := found.span.shift n }

def Tree.shift (n : Nat) (tree : Tree) : Tree := tree.map (RuleMatch.shift n) (Token.shift n)

namespace Tree

@[simp] theorem shift_leaf (n : Nat) (token : Token) :
    shift n (.leaf token) = .leaf (token.shift n) := Rose.map_leaf ..

@[simp] theorem shift_node (n : Nat) (found : RuleMatch) (ts : List Tree) :
    shift n (.node found ts) = .node (found.shift n) (ts.map (shift n)) := Rose.map_node ..

theorem leaves_shift (n : Nat) (tree : Tree) :
    (tree.shift n).leaves = tree.leaves.map (Token.shift n) := Rose.leaves_map ..

theorem leavesAll_shift (n : Nat) (ts : List Tree) :
    Rose.leavesAll (ts.map (shift n)) = (Rose.leavesAll ts).map (Token.shift n) := by
  induction ts with
  | nil => rfl
  | cons t ts ih =>
    rw [List.map_cons, Rose.leavesAll, Rose.leavesAll, leaves_shift, ih, List.map_append]

end Tree

namespace Matching

def Cursor.shift (n : Nat) (c : Cursor) : Cursor := ⟨c.offset + n, c.rest⟩

def Moves {γ α : Type} (n : Nat) (f : α → α) (m : Matcher γ α) : Prop :=
  ∀ c, (m (c.shift n)).result = (m c).result.map (Prod.map f (Cursor.shift n))

end Matching

namespace Clojure

open Matching

variable {n : Nat}

theorem treeShape_shift (n : Nat) (t : Tree) : treeShape (t.shift n) = treeShape t :=
  Rose.map_map ..

theorem skipTrivia_shift (n : Nat) (c : Cursor) :
    skipTrivia (c.shift n) = (skipTrivia c).shift n := by
  rw [skipTrivia, skipTrivia, Cursor.shift, Cursor.advance, Cursor.advance, Cursor.shift,
    Nat.add_right_comm]

theorem advance_shift (n : Nat) (c : Cursor) (taken left : List Char) :
    (c.shift n).advance taken left = (c.advance taken left).shift n := by
  rw [Cursor.advance, Cursor.advance, Cursor.shift, Cursor.shift, Nat.add_right_comm]

theorem token_shift (n : Nat) (k : TokenKind) (c : Cursor) (taken : List Char) :
    k.token (c.shift n) taken = (k.token c taken).shift n := by
  rw [TokenKind.token, TokenKind.token, Token.shift, Span.shift, Cursor.shift, Nat.add_right_comm]

theorem moves_token (k : TokenKind) : Moves n (Tree.shift n) (matchToken k) := by
  intro c
  rw [result_matchToken, result_matchToken, Option.map_map]
  refine Option.map_congr fun cut _ => ?_
  simp only [Function.comp_apply, Prod.map_apply, Tree.shift_leaf, token_shift, advance_shift]

section
variable {rule : Rule → Matcher Goal Tree} (hrule : ∀ r, Moves n (Tree.shift n) (rule r))
include hrule

theorem moves_symbol (s : Symbol) : Moves n (Tree.shift n) (matchSymbol rule s) := by
  cases s with
  | rule r => exact hrule r
  | token k => exact moves_token k

theorem moves_firstOf (options : List Symbol) :
    Moves n (Tree.shift n) (Matcher.firstOf (options.map (matchSymbol rule))) := by
  intro c
  rw [Matcher.result_firstOf, Matcher.result_firstOf, List.map_findSome?]
  congr 1
  funext s
  exact moves_symbol hrule s c

theorem moves_repeated (options : List Symbol) (limit : Nat) :
    Moves n (List.map (Tree.shift n)) (Matcher.repeated skipTrivia
      (Matcher.firstOf (options.map (matchSymbol rule))) limit) := by
  induction limit with
  | zero => exact fun c => rfl
  | succ limit ih =>
    intro c
    have hitem := moves_firstOf hrule options (skipTrivia c)
    rw [Matcher.result_repeated_succ, Matcher.result_repeated_succ, skipTrivia_shift, hitem]
    cases (Matcher.firstOf (options.map (matchSymbol rule)) (skipTrivia c)).result with
    | none => rfl
    | some found =>
      have hmore := ih found.2
      simp only [Option.map_some, Prod.map, hmore, Option.map_map]
      rfl

theorem moves_part (part : Part) : Moves n (List.map (Tree.shift n)) (matchPart rule part) := by
  intro c
  cases part with
  | one s =>
    rw [result_matchPart_one, result_matchPart_one, moves_symbol hrule s c, Option.map_map,
      Option.map_map]
    rfl
  | many options => exact moves_repeated hrule options (c.rest.length + 1) c
  | finish =>
    rw [result_matchPart_finish, result_matchPart_finish, Cursor.shift]
    split <;> rfl

theorem moves_inOrder (parts : List Part) :
    Moves n (List.map (Tree.shift n))
      (Matcher.inOrder skipTrivia (parts.map (matchPart rule))) := by
  induction parts with
  | nil => exact fun c => rfl
  | cons part parts ih =>
    intro c
    have hpart := moves_part hrule part (skipTrivia c)
    rw [List.map_cons, Matcher.result_inOrder_cons, Matcher.result_inOrder_cons, skipTrivia_shift,
      hpart]
    cases (matchPart rule part (skipTrivia c)).result with
    | none => rfl
    | some found =>
      have hmore := ih found.2
      simp only [Option.map_some, Option.bind_some, Prod.map, hmore, Option.map_map]
      refine Option.map_congr fun more _ => ?_
      simp

theorem moves_production (p : Production) :
    Moves n (List.map (Tree.shift n)) (matchProduction rule p) := by
  cases p with
  | sequence parts => exact moves_inOrder hrule parts
  | choice options =>
    intro c
    have hoption := moves_firstOf hrule options c
    rw [Matcher.result_firstOf, Matcher.result_firstOf] at hoption
    rw [result_matchProduction_choice, result_matchProduction_choice, hoption, Option.map_map,
      Option.map_map]
    rfl

end

theorem moves_matchRule (n depth : Nat) (r : Rule) :
    Moves n (Tree.shift n) (matchRule depth r) := by
  induction depth generalizing r with
  | zero => exact fun c => rfl
  | succ depth ih =>
    intro c
    rw [result_matchRule_succ, result_matchRule_succ, moves_production ih, Option.map_map,
      Option.map_map]
    refine Option.map_congr fun found _ => ?_
    simp [Prod.map, RuleMatch.shift, Span.shift, Cursor.shift]

theorem reading_shift {s : Symbol} {c c' : Cursor} {t : Tree} (n : Nat)
    (h : readingOf matchAt s c t c') :
    readingOf matchAt s (c.shift n) (t.shift n) (c'.shift n) := by
  have hmatch (r : Rule) : Moves n (Tree.shift n) (matchAt r) := fun c =>
    moves_matchRule n (5 * c.rest.length + r.height) r c
  rw [readingOf, moves_symbol hmatch s c, h]
  rfl

theorem Spells.shift {P : TokenKind → List Char → Prop} {c c' : Cursor} {ts : List Token} (n : Nat)
    (h : Spells P c ts c') : Spells P (c.shift n) (ts.map (Token.shift n)) (c'.shift n) := by
  induction h with
  | done c => exact .done _
  | @token k c stop taken left ts hcut hp _ ih =>
    rw [List.map_cons, ← token_shift, ← skipTrivia_shift]
    rw [← advance_shift, ← skipTrivia_shift] at ih
    exact .token (by rw [skipTrivia_shift]; exact hcut) (by rw [skipTrivia_shift]; exact hp) ih

end Clojure
end HiccupReader
