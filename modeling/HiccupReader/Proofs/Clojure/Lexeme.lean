import HiccupReader.Clojure.Grammar
import HiccupReader.Clojure.Lexeme
import HiccupReader.Proofs.Matching.Recogniser
import HiccupReader.Proofs.Matching.Results
import Mathlib.Data.List.Pairwise

/-! Which token kinds a text may begin with. Its first two characters leave few kinds, and where
they leave more than one, the lexer prefers the one that stands earlier in its precedence. -/

namespace HiccupReader.Clojure

open Matching Recogniser

namespace TokenKind

theorem lexeme_takes (k : TokenKind) : k.lexeme.Takes := by
  have octal : (inOrder [word ['\\'], characterBody]).Takes :=
    inOrder_takes ⟨word ['\\'], by simp, word_takes (by simp)⟩
  have signed : (inOrder [optional (oneOf isSign), oneOf Char.isDigit, numberTail]).Takes :=
    inOrder_takes ⟨oneOf Char.isDigit, by simp, oneOf_takes _⟩
  cases k with
  | character => exact octal
  | number => exact signed
  | nil | boolean =>
    exact notBefore_takes (by simp [firstOf_takes, word_takes]) _
  | readerConditional | caret => exact firstOf_takes (by simp [word_takes])
  | namespacedMapPrefix | tag | keyword | string | regex | symbolicValue =>
    exact inOrder_takes ⟨_, List.mem_cons_self .., word_takes (by simp)⟩
  | symbol => exact inOrder_takes ⟨_, List.mem_cons_self .., oneOf_takes _⟩
  | _ => exact word_takes (by simp)

theorem lexeme_nil (k : TokenKind) : k.lexeme [] = none := by
  cases h : k.lexeme [] with
  | none => rfl
  | some found =>
    have hcuts : found.1 ++ found.2 = [] := k.lexeme_cuts [] found.1 found.2 h
    exact absurd (List.append_eq_nil_iff.1 hcuts).1 (k.lexeme_takes [] found.1 found.2 h)

end TokenKind

open TokenKind

/-- The kinds that the character after a hash sign leaves. -/
def hashTable : List (Char × List TokenKind) :=
  [('"', [regex]), ('?', [readerConditional, tag]), ('\x7b', [hashBrace]), ('(', [hashParen]),
    ('\x27', [varQuote]), ('_', [discard, tag]), ('#', [symbolicValue]),
    (':', [namespacedMapPrefix]), ('^', [caret])]

def hashCandidates (c : Char) : List TokenKind := (hashTable.lookup c).getD [tag]

def plainTable : List (Char × List TokenKind) :=
  [('(', [leftParen]), (')', [rightParen]), ('[', [leftBracket]), (']', [rightBracket]),
    ('\x7b', [leftBrace]), ('\x7d', [rightBrace]), ('"', [string]), ('\x27', [quote]),
    ('\x60', [backtick]), ('~', [unquoteSplicing, unquote]), ('@', [deref]), ('^', [caret]),
    ('\\', [character]), (':', [keyword])]

def plainCandidates (c : Char) : List TokenKind :=
  (plainTable.lookup c).getD [number, nil, boolean, symbol]

/-- The kinds that a text may begin with, the preferred one first. -/
def candidates : List Char → List TokenKind
  | [] => []
  | c :: cs => if c = '#' then cs.head?.elim [] hashCandidates else plainCandidates c

theorem candidates_of_ne_hash {c : Char} (h : c ≠ '#') (cs : List Char) :
    candidates (c :: cs) = plainCandidates c := if_neg h

theorem mem_of_lookup {table : List (Char × List TokenKind)} {c : Char} {ks : List TokenKind}
    (h : table.lookup c = some ks) : (c, ks) ∈ table := by
  obtain ⟨before, after, rfl, -⟩ := List.lookup_eq_some_iff.1 h
  simp

theorem plainCandidates_of_open {c : Char} (h : isSymbolHead c = true ∨ c.isDigit = true) :
    c ≠ '#' ∧ plainCandidates c = [number, nil, boolean, symbol] := by
  have keys : ∀ entry ∈ plainTable,
      ¬ (isSymbolHead entry.1 = true ∨ entry.1.isDigit = true) := by decide
  have hnone : plainTable.lookup c = none := by
    rw [List.lookup_eq_none_iff]
    intro entry hentry
    rw [bne_iff_ne]
    rintro rfl
    exact keys entry hentry h
  refine ⟨?_, by rw [plainCandidates, hnone]; rfl⟩
  rintro rfl
  exact absurd h (by decide)

theorem tag_mem_hashCandidates {c : Char} (h : isSymbolHead c = true) :
    tag ∈ hashCandidates c := by
  have entries : ∀ entry ∈ hashTable, isSymbolHead entry.1 = true → tag ∈ entry.2 := by decide
  unfold hashCandidates
  cases hc : hashTable.lookup c with
  | none => simp
  | some ks => exact entries (c, ks) (mem_of_lookup hc) h

theorem tag_mem_candidates {cs : List Char} {found : List Char × List Char}
    (h : tag.lexeme cs = some found) : tag ∈ candidates cs := by
  obtain ⟨_, mid, _, hmark, hhead, -⟩ := inOrder_cons_eq_some_iff.1 h
  obtain ⟨-, rfl⟩ := word_eq_some_iff.1 hmark
  obtain ⟨text, htext⟩ := begins_of_inOrder hhead
  obtain ⟨first, hfirst⟩ := begins_of_inOrder htext
  obtain ⟨c, hc, -, rfl⟩ := oneOf_eq_some_iff.1 hfirst
  exact tag_mem_hashCandidates hc

theorem symbol_mem_candidates {cs : List Char} {found : List Char × List Char}
    (h : symbol.lexeme cs = some found) : symbol ∈ candidates cs := by
  rw [lexeme, symbolText] at h
  obtain ⟨first, hfirst⟩ := begins_of_inOrder h
  obtain ⟨c, hc, -, rfl⟩ := oneOf_eq_some_iff.1 hfirst
  obtain ⟨hne, hall⟩ := plainCandidates_of_open (.inl hc)
  rw [candidates_of_ne_hash hne, hall]
  decide

theorem number_mem_candidates {cs : List Char} {found : List Char × List Char}
    (h : number.lexeme cs = some found) : number ∈ candidates cs := by
  obtain ⟨_, mid, _, hsign, hrest, -⟩ := inOrder_cons_eq_some_iff.1 h
  rcases optional_eq_some_iff.1 hsign with hs | ⟨-, hn⟩
  · obtain ⟨c, hc, -, rfl⟩ := oneOf_eq_some_iff.1 hs
    simp only [isSign, Bool.or_eq_true, beq_iff_eq] at hc
    rcases hc with rfl | rfl <;> rw [candidates_of_ne_hash (by decide)] <;> decide
  · obtain ⟨rfl, rfl⟩ := Prod.mk.inj hn
    obtain ⟨first, hfirst⟩ := begins_of_inOrder hrest
    obtain ⟨c, hc, -, rfl⟩ := oneOf_eq_some_iff.1 hfirst
    obtain ⟨hne, hall⟩ := plainCandidates_of_open (.inr hc)
    rw [candidates_of_ne_hash hne, hall]
    decide

theorem begins_of_firstOf_words {v w cs : List Char} {found : List Char × List Char}
    (h : firstOf [word v, word w] cs = some found) :
    (∃ rest, cs = v ++ rest) ∨ ∃ rest, cs = w ++ rest := by
  rcases firstOf_cons_eq_some_iff.1 h with hv | ⟨-, hw⟩
  · exact .inl (begins_of_word hv)
  · rcases firstOf_cons_eq_some_iff.1 hw with hw | ⟨-, hnone⟩
    · exact .inr (begins_of_word hw)
    · cases hnone

theorem lexeme_mem_candidates {k : TokenKind} {cs : List Char} {found : List Char × List Char}
    (h : k.lexeme cs = some found) : k ∈ candidates cs := by
  cases k
  case tag => exact tag_mem_candidates h
  case symbol => exact symbol_mem_candidates h
  case number => exact number_mem_candidates h
  -- The other kinds begin with fixed words, so that the tables can be looked up.
  case nil =>
    obtain ⟨rest, rfl⟩ := begins_of_word (notBefore_eq_some_iff.1 h).1
    simp [candidates, plainCandidates, plainTable, List.lookup_cons]
  case boolean =>
    rcases begins_of_firstOf_words (notBefore_eq_some_iff.1 h).1 with ⟨rest, rfl⟩ | ⟨rest, rfl⟩
    · simp [candidates, plainCandidates, plainTable, List.lookup_cons]
    · simp [candidates, plainCandidates, plainTable, List.lookup_cons]
  case readerConditional | caret =>
    rcases begins_of_firstOf_words h with ⟨rest, rfl⟩ | ⟨rest, rfl⟩
    · simp [candidates, hashCandidates, plainCandidates, hashTable, plainTable, List.lookup_cons]
    · simp [candidates, hashCandidates, hashTable, List.lookup_cons]
  case namespacedMapPrefix | character | keyword | string | regex | symbolicValue =>
    rw [lexeme] at h
    obtain ⟨first, hfirst⟩ := begins_of_inOrder h
    obtain ⟨rest, rfl⟩ := begins_of_word hfirst
    simp [candidates, hashCandidates, plainCandidates, hashTable, plainTable, List.lookup_cons]
  all_goals
    obtain ⟨rest, rfl⟩ := begins_of_word h
    simp [candidates, hashCandidates, plainCandidates, hashTable, plainTable, List.lookup_cons]

theorem eq_of_candidates {k j : TokenKind} {cs : List Char} (h : candidates cs = [k])
    (hj : (j.lexeme cs).isSome) : j = k := by
  obtain ⟨found, hfound⟩ := Option.isSome_iff_exists.1 hj
  have hmem := lexeme_mem_candidates hfound
  rw [h] at hmem
  exact List.mem_singleton.1 hmem

namespace TokenKind

/-- The kinds that a text may also be read as where the lexer reads this kind. -/
def rivals : TokenKind → List TokenKind
  | readerConditional | discard => [tag]
  | unquoteSplicing => [unquote]
  | number => [nil, boolean, symbol]
  | nil => [boolean, symbol]
  | boolean => [symbol]
  | _ => []

structure Preferred (k : TokenKind) (cs : List Char) : Prop where
  accepts : (k.lexeme cs).isSome
  earlier : ∀ j ∈ precedence.takeWhile (· ≠ k), j.lexeme cs = none

theorem mem_precedence (k : TokenKind) : k ∈ precedence := by
  cases k <;> decide

theorem exists_preferred {k : TokenKind} {cs : List Char} (h : (k.lexeme cs).isSome) :
    ∃ j : TokenKind, j.Preferred cs := by
  have hsome : (precedence.findSome? fun j => j.lexeme cs).isSome :=
    List.findSome?_isSome_iff.2 ⟨k, k.mem_precedence, h⟩
  obtain ⟨found, hfound⟩ := Option.isSome_iff_exists.1 hsome
  obtain ⟨j, -, hj, hearlier⟩ := exists_first_of_findSome? hfound
  exact ⟨j, by simp [hj], hearlier⟩

end TokenKind

theorem candidates_pairwise (cs : List Char) :
    (candidates cs).Pairwise fun k j => j ∈ k.rivals := by
  have hash : ∀ entry ∈ hashTable, entry.2.Pairwise fun k j => j ∈ k.rivals := by decide
  have plain : ∀ entry ∈ plainTable, entry.2.Pairwise fun k j => j ∈ k.rivals := by decide
  rcases cs with _ | ⟨c, cs⟩
  · exact .nil
  rw [candidates]
  split
  · rcases cs with _ | ⟨d, ds⟩
    · exact .nil
    · change (hashCandidates d).Pairwise _
      unfold hashCandidates
      cases hd : hashTable.lookup d with
      | none => decide
      | some ks => exact hash (d, ks) (mem_of_lookup hd)
  · unfold plainCandidates
    cases hc : plainTable.lookup c with
    | none => decide
    | some ks => exact plain (c, ks) (mem_of_lookup hc)

theorem before_of_mem_rivals (j : TokenKind) :
    ∀ k ∈ j.rivals, j ∈ precedence.takeWhile (· ≠ k) := by
  cases j <;> decide

namespace TokenKind.Preferred

variable {k j : TokenKind} {cs : List Char}

theorem eq_or_mem_rivals (hk : k.Preferred cs) (hj : (j.lexeme cs).isSome) :
    j = k ∨ j ∈ k.rivals := by
  obtain ⟨_, hkc⟩ := Option.isSome_iff_exists.1 hk.accepts
  obtain ⟨_, hjc⟩ := Option.isSome_iff_exists.1 hj
  by_cases hjk : j = k
  · exact .inl hjk
  have : Std.Symm fun k j : TokenKind => j ∈ k.rivals ∨ k ∈ j.rivals := ⟨fun _ _ => Or.symm⟩
  have hpair : (candidates cs).Pairwise fun k j => j ∈ k.rivals ∨ k ∈ j.rivals :=
    (candidates_pairwise cs).imp .inl
  rcases hpair.forall (lexeme_mem_candidates hkc) (lexeme_mem_candidates hjc) (Ne.symm hjk)
    with h | h
  · exact .inr h
  · rw [hk.earlier j (before_of_mem_rivals j k h)] at hj
    cases hj

theorem unique (hk : k.Preferred cs) (hj : j.Preferred cs) : j = k := by
  rcases hk.eq_or_mem_rivals hj.accepts with h | h
  · exact h
  · have hnone : k.lexeme cs = none := hj.earlier k (before_of_mem_rivals k j h)
    have hsome := hk.accepts
    rw [hnone] at hsome
    cases hsome

theorem of_unrivalled (hrivals : ∀ p : TokenKind, k ∉ p.rivals) (h : (k.lexeme cs).isSome) :
    k.Preferred cs := by
  obtain ⟨p, hp⟩ := exists_preferred h
  rcases hp.eq_or_mem_rivals h with rfl | hrival
  · exact hp
  · exact absurd hrival (hrivals p)

end TokenKind.Preferred

end HiccupReader.Clojure
