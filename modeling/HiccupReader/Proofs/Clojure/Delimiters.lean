import HiccupReader.Proofs.Clojure.Failures
import HiccupReader.Proofs.Clojure.Recutting

/-! Delimiters of a text that is parsed are balanced: those of the tree, and also those that the
lexer finds, unless a tag of the tree hides a comment. A text whose delimiters are not balanced is
refused. -/

namespace HiccupReader.Clojure

open Matching

inductive Bracket
  | round
  | square
  | curly
  deriving DecidableEq

inductive Delimiter
  | opening (b : Bracket)
  | closing (b : Bracket)
  deriving DecidableEq

def TokenKind.delimiter? : TokenKind → Option Delimiter
  | leftParen | hashParen | readerConditional => some (.opening .round)
  | leftBracket => some (.opening .square)
  | leftBrace | hashBrace => some (.opening .curly)
  | rightParen => some (.closing .round)
  | rightBracket => some (.closing .square)
  | rightBrace => some (.closing .curly)
  | _ => none

def delimitersOf (tokens : List Token) : List Delimiter :=
  tokens.filterMap fun token => (TokenKind.ofIndex? token.rule).bind TokenKind.delimiter?

/-- Words where each opening delimiter is closed by its own closing delimiter, and nothing else is
closed. -/
inductive Balanced : List Delimiter → Prop
  | nil : Balanced []
  | enclosed {inner rest : List Delimiter} (b : Bracket) : Balanced inner → Balanced rest →
    Balanced (.opening b :: (inner ++ .closing b :: rest))

namespace Balanced

theorem append {xs ys : List Delimiter} (h : Balanced xs) (h' : Balanced ys) :
    Balanced (xs ++ ys) := by
  induction h with
  | nil => exact h'
  | enclosed b hinner _ _ ih =>
    rw [List.cons_append, List.append_assoc]
    exact .enclosed b hinner ih

end Balanced

def closesAll : (stack : List Bracket) → List Delimiter → Bool
  | [], [] => true
  | _ :: _, [] => false
  | stack, .opening b :: word => closesAll (b :: stack) word
  | b :: stack, .closing c :: word => b = c && closesAll stack word
  | [], .closing _ :: _ => false

theorem Balanced.closesAll_append {word : List Delimiter} (h : Balanced word)
    (stack : List Bracket) (rest : List Delimiter) :
    closesAll stack (word ++ rest) = closesAll stack rest := by
  induction h generalizing stack rest with
  | nil => rfl
  | @enclosed inner others b _ _ ihinner ihothers =>
    have hword : .opening b :: (inner ++ .closing b :: others) ++ rest =
        .opening b :: (inner ++ .closing b :: (others ++ rest)) := by simp
    rw [hword, closesAll, ihinner, closesAll, ihothers]
    simp

inductive Unwinds : List Bracket → List Delimiter → Prop
  | last {word : List Delimiter} : Balanced word → Unwinds [] word
  | closing {b : Bracket} {stack : List Bracket} {word rest : List Delimiter} : Balanced word →
    Unwinds stack rest → Unwinds (b :: stack) (word ++ .closing b :: rest)

theorem Unwinds.enclosed {stack : List Bracket} {inner rest : List Delimiter} (b : Bracket)
    (hinner : Balanced inner) (h : Unwinds stack rest) :
    Unwinds stack (.opening b :: (inner ++ .closing b :: rest)) := by
  cases h with
  | last hrest => exact .last (.enclosed b hinner hrest)
  | @closing c stack word rest hword hrest =>
    have hsplit : .opening b :: (inner ++ .closing b :: (word ++ .closing c :: rest)) =
        .opening b :: (inner ++ .closing b :: word) ++ .closing c :: rest := by simp
    rw [hsplit]
    exact .closing (.enclosed b hinner hword) hrest

theorem unwinds_of_closesAll {stack : List Bracket} {word : List Delimiter}
    (h : closesAll stack word = true) : Unwinds stack word := by
  induction word generalizing stack with
  | nil =>
    cases stack with
    | nil => exact .last .nil
    | cons b stack => cases h
  | cons delimiter word ih =>
    cases delimiter with
    | opening b =>
      rw [closesAll] at h
      cases ih h with
      | closing hinner hrest => exact hrest.enclosed b hinner
    | closing c =>
      cases stack with
      | nil => cases h
      | cons b stack =>
        rw [closesAll, Bool.and_eq_true, decide_eq_true_eq] at h
        obtain ⟨rfl, hrest⟩ := h
        exact .closing .nil (ih hrest)

theorem balanced_iff {word : List Delimiter} : Balanced word ↔ closesAll [] word = true := by
  constructor
  · intro h
    rw [← List.append_nil word, h.closesAll_append]
    rfl
  · intro h
    cases unwinds_of_closesAll h with
    | last hword => exact hword

instance : DecidablePred Balanced := fun _ => decidable_of_iff _ balanced_iff.symm

def Derivation.delimiters (d : Derivation) : List Delimiter :=
  d.leaves.filterMap TokenKind.delimiter?

theorem delimitersOf_eq {tokens : List Token} {ks : List TokenKind}
    (h : tokens.map Token.rule = ks.map TokenKind.index) :
    delimitersOf tokens = ks.filterMap TokenKind.delimiter? := by
  have hrules : delimitersOf tokens = (tokens.map Token.rule).filterMap fun rule =>
      (TokenKind.ofIndex? rule).bind TokenKind.delimiter? := by
    rw [List.filterMap_map]
    rfl
  rw [hrules, h, List.filterMap_map]
  congr 1
  funext k
  rw [Function.comp_apply, k.ofIndex?_index, Option.bind_some]

theorem delimiter?_eq_none {k : TokenKind} (h : Nesting.role k ≠ .opens)
    (h' : Nesting.role k ≠ .closes) : k.delimiter? = none := by
  cases k with
  | leftParen | hashParen | readerConditional | leftBracket | leftBrace | hashBrace =>
    exact absurd rfl h
  | rightParen | rightBracket | rightBrace => exact absurd rfl h'
  | _ => rfl

theorem delimiter?_of_awaits {k : TokenKind} {forms : Nat} (h : Nesting.role k = .awaits forms) :
    k.delimiter? = none := by
  apply delimiter?_eq_none <;> rw [h] <;> exact Nesting.Role.noConfusion

theorem delimiter?_of_completes {k : TokenKind} (h : Nesting.role k = .completes) :
    k.delimiter? = none := by
  apply delimiter?_eq_none <;> rw [h] <;> exact Nesting.Role.noConfusion

theorem exists_bracket_of_enclosed {r : Rule} {j k : TokenKind}
    (hr : r.production = .enclosed j k) :
    ∃ b, j.delimiter? = some (.opening b) ∧ k.delimiter? = some (.closing b) := by
  cases r <;> cases hr <;> exact ⟨_, rfl, rfl⟩

/-- The lexer keeps the delimiters as they are: what it makes of a tag holds none. -/
theorem Recut.delimiters_eq {ks js : List TokenKind} (h : Recut ks js) :
    js.filterMap TokenKind.delimiter? = ks.filterMap TokenKind.delimiter? := by
  induction h with
  | nil => rfl
  | same k _ ih => rw [List.filterMap_cons, List.filterMap_cons, ih]
  | @reread marks ks js hmarks _ ih =>
    have hnone : marks.filterMap TokenKind.delimiter? = [] :=
      List.filterMap_eq_nil_iff.2 fun k hk => delimiter?_of_awaits (hmarks k hk)
    calc (.discard :: (marks ++ js)).filterMap TokenKind.delimiter?
        = (marks ++ js).filterMap TokenKind.delimiter? := rfl
      _ = js.filterMap TokenKind.delimiter? := by rw [List.filterMap_append, hnone]; rfl
      _ = (TokenKind.tag :: ks).filterMap TokenKind.delimiter? := ih

theorem balanced_all {ds : List Derivation} (h : ∀ d ∈ ds, Balanced d.delimiters) :
    Balanced ((Rose.leavesAll ds).filterMap TokenKind.delimiter?) := by
  induction ds with
  | nil => exact .nil
  | cons d ds ih =>
    obtain ⟨hd, hds⟩ := List.forall_mem_cons.1 h
    rw [Rose.leavesAll, List.filterMap_append]
    exact hd.append (ih hds)

theorem Nesting.Formed.balanced {d : Derivation} (h : Nesting.Formed d) : Balanced d.delimiters := by
  induction h with
  | choice _ _ _ ih => exact balanced_all (List.forall_mem_singleton.2 ih)
  | @single r k _ hk =>
    have hnone : Derivation.delimiters (.node r [.leaf k]) = [] :=
      List.filterMap_eq_nil_iff.2 (List.forall_mem_singleton.2 (delimiter?_of_completes hk))
    rw [hnone]
    exact .nil
  | @enclosed r j k d hr _ _ _ _ ih =>
    obtain ⟨b, hopening, hclosing⟩ := exists_bracket_of_enclosed hr
    have hword : Derivation.delimiters (.node r [.leaf j, d, .leaf k]) =
        .opening b :: (d.delimiters ++ [.closing b]) := by
      simp [Derivation.delimiters, Rose.leaves, Rose.leavesAll, hopening, hclosing]
    rw [hword]
    exact .enclosed b ih .nil
  | @awaiting r k ds _ hk _ _ _ _ ih =>
    have hnone : k.delimiter? = none := delimiter?_of_awaits hk
    have hword : Derivation.delimiters (.node r (.leaf k :: ds)) =
        (Rose.leavesAll ds).filterMap TokenKind.delimiter? := by
      simp [Derivation.delimiters, Rose.leaves, Rose.leavesAll, hnone]
    rw [hword]
    exact balanced_all ih
  | forms _ _ ih => exact balanced_all ih

theorem balanced_of_derive {text : String} {tree : Tree} (h : derive text = .ok tree) :
    Balanced (delimitersOf tree.tokens) := by
  obtain ⟨c, hread⟩ := derive_eq_ok_iff.1 h
  obtain ⟨d, hvalid, hroot, hkinds⟩ := exists_forms_of_derives (derives_of_reading hread)
  rw [Tree.tokens_eq_leaves, delimitersOf_eq hkinds]
  exact (Nesting.formed_of_valid hvalid (by rw [hroot]; rfl)).balanced

theorem exists_balanced_of_parse {text : String} {tree : Tree} (h : parse text = .ok tree)
    (hvisible : ∀ token ∈ tree.tokens, ¬ HidesComment token.text) :
    ∃ tokens, lex text = .ok tokens ∧ Balanced (delimitersOf tokens) := by
  obtain ⟨tokens, js, d, hlex, -, hvalid, hroot, -, hkinds, hrecut⟩ :=
    exists_recut_of_parse h hvisible
  refine ⟨tokens, hlex, ?_⟩
  rw [delimitersOf_eq hkinds, hrecut.delimiters_eq]
  exact (Nesting.formed_of_valid hvalid (by rw [hroot]; rfl)).balanced

theorem kind_of_parse_error {text : String} {error : SyntaxError}
    (h : parse text = .error error) (name : String) :
    (error.diagnostic ⟨name, text⟩).kind = .parse := by
  have hfits : error.Fits (Source.mk name text).text := fits_of_parse_error h
  exact hfits.pointsInto.kind

/-- The delimiters of a tree are balanced, and so are those that the lexer finds if no token of the
tree hides a comment. But for such trees a text is refused if they are not. -/
theorem delimiters_balanced (text : String) :
    (∀ tree, parse text = .ok tree → Balanced (delimitersOf tree.tokens) ∧
      ∃ tokens, lex text = .ok tokens ∧
        ((∀ token ∈ tree.tokens, ¬ HidesComment token.text) → Balanced (delimitersOf tokens))) ∧
    ∀ tokens, lex text = .ok tokens → ¬ Balanced (delimitersOf tokens) →
      (∃ error, parse text = .error error ∧
        ∀ name, (error.diagnostic ⟨name, text⟩).kind = .parse) ∨
      ∃ tree, parse text = .ok tree ∧ ∃ token ∈ tree.tokens, HidesComment token.text := by
  have balanced : ∀ tree tokens, parse text = .ok tree → lex text = .ok tokens →
      (∀ token ∈ tree.tokens, ¬ HidesComment token.text) → Balanced (delimitersOf tokens) := by
    intro tree tokens hparse hlex hvisible
    obtain ⟨found, hfound, hbalanced⟩ := exists_balanced_of_parse hparse hvisible
    obtain rfl : tokens = found := Except.ok.inj (hlex.symm.trans hfound)
    exact hbalanced
  constructor
  · intro tree hparse
    obtain ⟨tokens, hlex, -, hderive⟩ := parse_eq_ok_iff.1 hparse
    exact ⟨balanced_of_derive hderive, tokens, hlex, balanced tree tokens hparse hlex⟩
  · intro tokens hlex hunbalanced
    cases hparse : parse text with
    | error error => exact .inl ⟨error, rfl, kind_of_parse_error hparse⟩
    | ok tree =>
      refine .inr ⟨tree, rfl, ?_⟩
      by_contra hnone
      exact hunbalanced (balanced tree tokens hparse hlex fun token hmem hhides =>
        hnone ⟨token, hmem, hhides⟩)

theorem hidden_delimiters_balanced :
    (∃ tree tokens, parse "#(a [\\( \")\"] ;]\n)" = .ok tree ∧
      lex "#(a [\\( \")\"] ;]\n)" = .ok tokens ∧
      delimitersOf tokens = [.opening .round, .opening .square, .closing .square, .closing .round] ∧
      Balanced (delimitersOf tokens)) ∧
    ∃ error, parse "([)]" = .error error ∧
      ∀ name, (error.diagnostic ⟨name, "([)]"⟩).kind = .parse := by
  constructor
  · have hfound : (parse "#(a [\\( \")\"] ;]\n)").toOption.map (fun tree =>
        decide (∀ token ∈ tree.tokens, ¬ HidesComment token.text)) = some true := by
      decide +kernel
    obtain ⟨tree, htree, hvisible⟩ := Option.map_eq_some_iff.1 hfound
    have hparse := eq_ok_of_toOption htree
    obtain ⟨-, tokens, hlex, hbalanced⟩ := (delimiters_balanced _).1 tree hparse
    have hword : (lex "#(a [\\( \")\"] ;]\n)").toOption.map delimitersOf =
        some [.opening .round, .opening .square, .closing .square, .closing .round] := by
      decide +kernel
    rw [hlex] at hword
    exact ⟨tree, tokens, hparse, hlex, Option.some.inj hword,
      hbalanced (of_decide_eq_true hvisible)⟩
  · have hfound : (lex "([)]").toOption.map (fun tokens => decide (Balanced (delimitersOf tokens))) =
        some false := by
      decide +kernel
    have hrefused : (parse "([)]").toOption.isSome = false := by decide +kernel
    obtain ⟨tokens, htokens, hunbalanced⟩ := Option.map_eq_some_iff.1 hfound
    rcases (delimiters_balanced _).2 tokens (eq_ok_of_toOption htokens)
      (of_decide_eq_false hunbalanced) with herror | ⟨tree, hparse, -⟩
    · exact herror
    · rw [hparse] at hrefused
      cases hrefused

/-- The lexer takes the opening bracket for a part of the comment. -/
theorem not_delimiters_balanced :
    ¬ ∀ text tree tokens, parse text = .ok tree → lex text = .ok tokens →
      Balanced (delimitersOf tokens) := by
  intro hbalanced
  obtain ⟨tree, hparse⟩ : ∃ tree, parse "#_#!x [\n]" = .ok tree := exists_eq_ok (by decide +kernel)
  have hlex : lex "#_#!x [\n]" =
      .ok [⟨TokenKind.discard.index, "#_", 0, 2⟩, ⟨TokenKind.rightBracket.index, "]", 8, 9⟩] :=
    eq_ok_of_toOption (by decide +kernel)
  exact absurd (hbalanced _ tree _ hparse hlex) (by decide)

end HiccupReader.Clojure
