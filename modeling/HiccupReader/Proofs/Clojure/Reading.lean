import HiccupReader.Clojure.Matching
import HiccupReader.Proofs.Matching.Results

/-! What a match consists of. A relation between symbols, places and trees is carried through the
parts of a production, and what every production preserves holds of all that is matched. -/

namespace HiccupReader.Clojure

open Matching

def TokenKind.token (k : TokenKind) (c : Cursor) (taken : List Char) : Token :=
  ⟨k.index, String.ofList taken, c.offset, c.offset + Text.byteLength taken⟩

theorem result_matchToken (k : TokenKind) (c : Cursor) :
    (matchToken k c).result =
      (k.lexeme c.rest).map fun cut => (.leaf (k.token c cut.1), c.advance cut.1 cut.2) := by
  rw [matchToken]
  split
  · next h => rw [h]; rfl
  · next h => rw [h]; rfl

section

variable (rule : Rule → Matcher Goal Tree)

theorem result_matchPart_one (s : Symbol) (c : Cursor) :
    (matchPart rule (.one s) c).result =
      (matchSymbol rule s c).result.map fun found => ([found.1], found.2) := by
  rw [matchPart, Attempt.result_andThen, Option.map_eq_bind]
  rfl

theorem result_matchPart_finish (c : Cursor) :
    (matchPart rule .finish c).result = if c.rest = [] then some ([], c) else none := by
  rw [matchPart, matchEnd]
  split
  · next h => rw [h]; rfl
  · next h => rw [h]; rfl

theorem result_matchProduction_choice (options : List Symbol) (c : Cursor) :
    (matchProduction rule (.choice options) c).result =
      (options.findSome? fun s => (matchSymbol rule s c).result).map fun found =>
        ([found.1], found.2) := by
  rw [matchProduction, Attempt.result_andThen, Matcher.result_firstOf, Option.map_eq_bind]
  rfl

end

theorem result_matchRule_succ (depth : Nat) (r : Rule) (c : Cursor) :
    (matchRule (depth + 1) r c).result =
      (matchProduction (matchRule depth) r.production c).result.map fun found =>
        (.node ⟨r.index, c.offset, found.2.offset⟩ found.1, found.2) := by
  rw [matchRule, Attempt.result_aimedAt, Attempt.result_andThen, Option.map_eq_bind]
  rfl

abbrev Reading := Symbol → Cursor → Tree → Cursor → Prop

def readingOf (rule : Rule → Matcher Goal Tree) : Reading := fun s c t c' =>
  (matchSymbol rule s c).result = some (t, c')

theorem readingOf_token_iff {rule : Rule → Matcher Goal Tree} {k : TokenKind} {c c' : Cursor}
    {t : Tree} :
    readingOf rule (.token k) c t c' ↔
      ∃ taken left, k.lexeme c.rest = some (taken, left) ∧ t = .leaf (k.token c taken) ∧
        c' = c.advance taken left := by
  rw [readingOf, matchSymbol, result_matchToken, Option.map_eq_some_iff]
  constructor
  · rintro ⟨⟨taken, left⟩, hcut, he⟩
    obtain ⟨rfl, rfl⟩ := Prod.mk.inj he
    exact ⟨taken, left, hcut, rfl, rfl⟩
  · rintro ⟨taken, left, hcut, rfl, rfl⟩
    exact ⟨(taken, left), hcut, rfl⟩

inductive Items (R : Reading) (options : List Symbol) : Cursor → List Tree → Cursor → Prop
  | done (c : Cursor) : Items R options c [] c
  | item {s : Symbol} {c c₁ c₂ : Cursor} {t : Tree} {ts : List Tree} :
    s ∈ options → R s (skipTrivia c) t c₁ → Items R options c₁ ts c₂ →
      Items R options c (t :: ts) c₂

inductive Sequenced (R : Reading) : List Part → Cursor → List Tree → Cursor → Prop
  | done (c : Cursor) : Sequenced R [] c [] c
  | one {s : Symbol} {parts : List Part} {c c₁ c₂ : Cursor} {t : Tree} {ts : List Tree} :
    R s (skipTrivia c) t c₁ → Sequenced R parts c₁ ts c₂ →
      Sequenced R (.one s :: parts) c (t :: ts) c₂
  | many {options : List Symbol} {parts : List Part} {c c₁ c₂ : Cursor} {ts us : List Tree} :
    Items R options (skipTrivia c) ts c₁ → Sequenced R parts c₁ us c₂ →
      Sequenced R (.many options :: parts) c (ts ++ us) c₂
  | finish {parts : List Part} {c c' : Cursor} {ts : List Tree} :
    (skipTrivia c).rest = [] → Sequenced R parts (skipTrivia c) ts c' →
      Sequenced R (.finish :: parts) c ts c'

inductive Produced (R : Reading) : Production → Cursor → List Tree → Cursor → Prop
  | sequence {parts : List Part} {c c' : Cursor} {ts : List Tree} :
    Sequenced R parts c ts c' → Produced R (.sequence parts) c ts c'
  | choice {options : List Symbol} {s : Symbol} {c c' : Cursor} {t : Tree} :
    s ∈ options → R s c t c' → Produced R (.choice options) c [t] c'

section

variable {R S : Reading} (hRS : ∀ {s c t c'}, R s c t c' → S s c t c')

include hRS

theorem Items.mono {options : List Symbol} {c c' : Cursor} {ts : List Tree}
    (h : Items R options c ts c') : Items S options c ts c' := by
  induction h with
  | done c => exact .done c
  | item hs hread _ ih => exact .item hs (hRS hread) ih

theorem Sequenced.mono {parts : List Part} {c c' : Cursor} {ts : List Tree}
    (h : Sequenced R parts c ts c') : Sequenced S parts c ts c' := by
  induction h with
  | done c => exact .done c
  | one hread _ ih => exact .one (hRS hread) ih
  | many hitems _ ih => exact .many (hitems.mono hRS) ih
  | finish hend _ ih => exact .finish hend ih

theorem Produced.mono {p : Production} {c c' : Cursor} {ts : List Tree}
    (h : Produced R p c ts c') : Produced S p c ts c' := by
  cases h with
  | sequence hparts => exact .sequence (hparts.mono hRS)
  | choice hs hread => exact .choice hs (hRS hread)

end

def chosenOf (rule : Rule → Matcher Goal Tree) (options : List Symbol) : Reading :=
  fun s c t c' => readingOf rule s c t c' ∧
    ∀ x ∈ options.takeWhile (· ≠ s), (matchSymbol rule x c).result = none

section

variable {rule : Rule → Matcher Goal Tree}

theorem chosen_of_repeated {options : List Symbol} {limit : Nat} {c c' : Cursor} {ts : List Tree}
    (h : (Matcher.repeated skipTrivia (Matcher.firstOf (options.map (matchSymbol rule)))
      limit c).result = some (ts, c')) : Items (chosenOf rule options) options c ts c' := by
  induction limit generalizing c ts with
  | zero =>
    obtain ⟨rfl, rfl⟩ := Prod.mk.inj (Option.some.inj h)
    exact .done c
  | succ limit ih =>
    rw [Matcher.result_repeated_succ] at h
    split at h
    · obtain ⟨rfl, rfl⟩ := Prod.mk.inj (Option.some.inj h)
      exact .done c
    · next t c₁ hfirst =>
      obtain ⟨⟨us, c₂⟩, hmore, he⟩ := Option.map_eq_some_iff.1 h
      obtain ⟨rfl, rfl⟩ := Prod.mk.inj he
      rw [Matcher.result_firstOf] at hfirst
      obtain ⟨s, hs, hread, hearlier⟩ := exists_first_of_findSome? hfirst
      exact .item hs ⟨hread, hearlier⟩ (ih hmore)

theorem items_of_repeated {options : List Symbol} {limit : Nat} {c c' : Cursor} {ts : List Tree}
    (h : (Matcher.repeated skipTrivia (Matcher.firstOf (options.map (matchSymbol rule)))
      limit c).result = some (ts, c')) : Items (readingOf rule) options c ts c' :=
  (chosen_of_repeated h).mono And.left

theorem sequenced_of_inOrder {parts : List Part} {c c' : Cursor} {ts : List Tree}
    (h : (Matcher.inOrder skipTrivia (parts.map (matchPart rule)) c).result = some (ts, c')) :
    Sequenced (readingOf rule) parts c ts c' := by
  induction parts generalizing c ts with
  | nil =>
    obtain ⟨rfl, rfl⟩ := Prod.mk.inj (Option.some.inj h)
    exact .done c
  | cons part parts ih =>
    rw [List.map_cons, Matcher.result_inOrder_cons] at h
    obtain ⟨⟨us, c₁⟩, hpart, hrest⟩ := Option.bind_eq_some_iff.1 h
    obtain ⟨⟨vs, c₂⟩, hmore, he⟩ := Option.map_eq_some_iff.1 hrest
    obtain ⟨rfl, rfl⟩ := Prod.mk.inj he
    have tail : Sequenced (readingOf rule) parts c₁ vs c₂ := ih hmore
    cases part with
    | one s =>
      rw [result_matchPart_one] at hpart
      obtain ⟨⟨t, c₃⟩, hread, he⟩ := Option.map_eq_some_iff.1 hpart
      obtain ⟨rfl, rfl⟩ := Prod.mk.inj he
      exact .one hread tail
    | many options => exact .many (items_of_repeated hpart) tail
    | finish =>
      rw [result_matchPart_finish] at hpart
      split at hpart
      · next hend =>
        obtain ⟨rfl, rfl⟩ := Prod.mk.inj (Option.some.inj hpart)
        exact .finish hend tail
      · cases hpart

theorem produced_of_matchProduction {p : Production} {c c' : Cursor} {ts : List Tree}
    (h : (matchProduction rule p c).result = some (ts, c')) :
    Produced (readingOf rule) p c ts c' := by
  cases p with
  | sequence parts => exact .sequence (sequenced_of_inOrder h)
  | choice options =>
    rw [result_matchProduction_choice] at h
    obtain ⟨⟨t, c₁⟩, hfirst, he⟩ := Option.map_eq_some_iff.1 h
    obtain ⟨rfl, rfl⟩ := Prod.mk.inj he
    obtain ⟨s, hs, hread⟩ := List.exists_of_findSome?_eq_some hfirst
    exact .choice hs hread

end

/-- A reading that holds of the tokens, and of a rule whenever it holds of what its production
gives, holds of everything that is matched. -/
theorem reading_of_matchRule {R : Reading}
    (token : ∀ {k c taken left}, k.lexeme c.rest = some (taken, left) →
      R (.token k) c (.leaf (k.token c taken)) (c.advance taken left))
    (node : ∀ {r c ts c'}, Produced R r.production c ts c' →
      R (.rule r) c (.node ⟨r.index, c.offset, c'.offset⟩ ts) c')
    {depth : Nat} {r : Rule} {c c' : Cursor} {t : Tree}
    (h : (matchRule depth r c).result = some (t, c')) : R (.rule r) c t c' := by
  induction depth generalizing r c t c' with
  | zero => cases h
  | succ depth ih =>
    rw [result_matchRule_succ] at h
    obtain ⟨⟨ts, c₁⟩, hparts, he⟩ := Option.map_eq_some_iff.1 h
    obtain ⟨rfl, rfl⟩ := Prod.mk.inj he
    -- Symbols in the production are matched with one depth less, tokens without any.
    have symbols : ∀ {s c t c'}, readingOf (matchRule depth) s c t c' → R s c t c' := by
      intro s c t c' hread
      cases s with
      | rule r => exact ih hread
      | token k =>
        obtain ⟨taken, left, hcut, rfl, rfl⟩ := readingOf_token_iff.1 hread
        exact token hcut
    exact node ((produced_of_matchProduction hparts).mono symbols)

end HiccupReader.Clojure
