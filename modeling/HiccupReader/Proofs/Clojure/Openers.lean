import HiccupReader.Proofs.Clojure.Leads

/-! A form is the first rule that matches among all that open with a token of their own. Where such
a token can be read as two, the rule of the whole token matches if that of its first part does. -/

namespace HiccupReader.Clojure

open Matching

def leavesAt (s : Symbol) (c : Cursor) : Option (List Token × Cursor) :=
  (matchSymbol matchAt s c).result.map fun found => (found.1.leaves, found.2)

def openers : List Symbol :=
  Rule.collection.production.firsts ++ Rule.readerMacro.production.firsts ++
    Rule.literal.production.firsts

theorem leavesAt_choice {r : Rule} {options : List Symbol} (hr : r.production = .choice options)
    (c : Cursor) : leavesAt (.rule r) c = options.findSome? fun s => leavesAt s c := by
  have hresult : (matchSymbol matchAt (.rule r) c).result = (matchAt r c).result := rfl
  rw [leavesAt, hresult, result_matchAt, hr, result_matchProduction_choice, Option.map_map,
    Option.map_map, List.map_findSome?]
  congr 1
  funext s
  rw [Function.comp_apply, leavesAt]
  congr 1
  funext found
  simp [Rose.leaves, Rose.leavesAll]

theorem leavesAt_form (c : Cursor) :
    leavesAt (.rule .form) c = openers.findSome? fun s => leavesAt s c := by
  have hform : Rule.form.production =
      .choice [.rule .collection, .rule .readerMacro, .rule .literal] := rfl
  -- A choice of choices tries the options of one after those of the other.
  rw [openers, List.findSome?_append, List.findSome?_append, leavesAt_choice hform]
  have hgroup : ∀ {r : Rule} {options : List Symbol}, r.production = .choice options →
      (r.production.firsts.findSome? fun s => leavesAt s c) = leavesAt (.rule r) c := by
    intro r options hr
    rw [leavesAt_choice hr, hr]
    rfl
  have hcollection := hgroup (r := .collection) rfl
  have hmacro := hgroup (r := .readerMacro) rfl
  have hliteral := hgroup (r := .literal) rfl
  rw [hcollection, hmacro, hliteral]
  simp only [List.findSome?_cons, List.findSome?_nil]
  cases leavesAt (.rule .collection) c <;> cases leavesAt (.rule .readerMacro) c <;>
    cases leavesAt (.rule .literal) c <;> rfl

def Accepts (s : Symbol) (c : Cursor) : Prop := (leavesAt s c).isSome = true

def AcceptsInOrder (parts : List Part) (c : Cursor) : Prop :=
  (Matcher.inOrder skipTrivia (parts.map (matchPart matchAt)) c).result.isSome = true

theorem accepts_iff {s : Symbol} {c : Cursor} :
    Accepts s c ↔ ∃ t c', readingOf matchAt s c t c' := by
  rw [Accepts, leavesAt, Option.isSome_map, Option.isSome_iff_exists]
  exact ⟨fun ⟨found, h⟩ => ⟨found.1, found.2, h⟩, fun ⟨t, c', h⟩ => ⟨(t, c'), h⟩⟩

theorem accepts_form_iff {c : Cursor} : Accepts (.rule .form) c ↔ ∃ s ∈ openers, Accepts s c := by
  rw [Accepts, leavesAt_form, List.findSome?_isSome_iff]
  rfl

theorem accepts_sequence_iff {r : Rule} {k : TokenKind} {parts : List Part} {c : Cursor}
    (hr : r.production = .sequence (.one (.token k) :: parts)) (hc : Settled c) :
    Accepts (.rule r) c ↔ ∃ taken left, k.lexeme c.rest = some (taken, left) ∧
      AcceptsInOrder parts (c.advance taken left) := by
  have hresult : (matchSymbol matchAt (.rule r) c).result = (matchAt r c).result := rfl
  have hfirst : (matchPart matchAt (.one (.token k)) c).result =
      (k.lexeme c.rest).map fun cut => ([.leaf (k.token c cut.1)], c.advance cut.1 cut.2) := by
    rw [result_matchPart_one, matchSymbol, result_matchToken, Option.map_map]
    rfl
  rw [Accepts, leavesAt, hresult, result_matchAt, hr, matchProduction, List.map_cons,
    Matcher.result_inOrder_cons, hc, hfirst]
  cases hcut : k.lexeme c.rest with
  | none => simp
  | some cut =>
    obtain ⟨taken, left⟩ := cut
    simp [AcceptsInOrder]

theorem acceptsInOrder_one_iff {s : Symbol} {c : Cursor} :
    AcceptsInOrder [.one s] c ↔ Accepts s (skipTrivia c) := by
  rw [AcceptsInOrder, List.map_singleton, Matcher.result_inOrder_cons, result_matchPart_one,
    Accepts, leavesAt]
  cases (matchSymbol matchAt s (skipTrivia c)).result with
  | none => rfl
  | some found => rfl

theorem accepts_single {r : Rule} {k : TokenKind} {c : Cursor} (hr : r.production = .single k)
    (hc : Settled c) (hk : (k.lexeme c.rest).isSome) : Accepts (.rule r) c := by
  obtain ⟨cut, hcut⟩ := Option.isSome_iff_exists.1 hk
  exact (accepts_sequence_iff hr hc).2 ⟨cut.1, cut.2, hcut, rfl⟩

theorem openers_full : ∀ s ∈ openers, s.full = true := by decide

theorem accepts_form_of_parts {r : Rule} {k : TokenKind} {parts : List Part} {c : Cursor}
    {taken left : List Char} (hr : r.production = .sequence (.one (.token k) :: parts))
    (hmem : Symbol.rule r ∈ openers) (hc : Settled c)
    (hcut : k.lexeme c.rest = some (taken, left))
    (h : AcceptsInOrder parts (c.advance taken left)) : Accepts (.rule .form) c :=
  accepts_form_iff.2 ⟨.rule r, hmem, (accepts_sequence_iff hr hc).2 ⟨taken, left, hcut, h⟩⟩

theorem acceptsInOrder_of_candidates {r : Rule} {k : TokenKind} {parts : List Part} {c : Cursor}
    {taken left : List Char} (hr : r.production = .sequence (.one (.token k) :: parts))
    (honly : ∀ x ∈ openers, k ∈ x.leads → x = .rule r) (hc : Settled c)
    (hk : candidates c.rest = [k]) (hcut : k.lexeme c.rest = some (taken, left))
    (h : Accepts (.rule .form) c) : AcceptsInOrder parts (c.advance taken left) := by
  obtain ⟨x, hx, hxc⟩ := accepts_form_iff.1 h
  obtain ⟨t, c', hread⟩ := accepts_iff.1 hxc
  obtain ⟨j, hj, hsome⟩ := exists_lead_of_reading hread hc (openers_full x hx)
  obtain rfl := eq_of_candidates hk hsome
  rw [honly x hx hj] at hxc
  obtain ⟨taken', left', hcut', hrest⟩ := (accepts_sequence_iff hr hc).1 hxc
  rw [hcut] at hcut'
  obtain ⟨rfl, rfl⟩ := Prod.mk.inj (Option.some.inj hcut')
  exact hrest

theorem acceptsInOrder_of_list {c : Cursor} {cs : List Char} (h : c.rest = '(' :: cs)
    (haccepts : Accepts (.rule .form) (skipTrivia c)) :
    AcceptsInOrder [.one (.rule .forms), .one (.token .rightParen)] (c.advance ['('] cs) := by
  have hc : Settled c := .of_rest_cons h (by decide) rfl
  rw [hc] at haccepts
  exact acceptsInOrder_of_candidates (r := .list) rfl (by decide) hc (by rw [h]; rfl)
    (by rw [h]; rfl) haccepts

theorem acceptsInOrder_of_deref {c : Cursor} {cs : List Char} (h : c.rest = '@' :: cs)
    (haccepts : Accepts (.rule .form) (skipTrivia c)) :
    AcceptsInOrder [.one (.rule .form)] (c.advance ['@'] cs) := by
  have hc : Settled c := .of_rest_cons h (by decide) rfl
  rw [hc] at haccepts
  exact acceptsInOrder_of_candidates (r := .deref) rfl (by decide) hc (by rw [h]; rfl)
    (by rw [h]; rfl) haccepts

theorem accepts_unquoteSplicing {c : Cursor} (hc : Settled c)
    (hk : (TokenKind.unquoteSplicing.lexeme c.rest).isSome)
    (h : Accepts (.rule .unquote) c) : Accepts (.rule .unquoteSplicing) c := by
  obtain ⟨cut, hcut⟩ := Option.isSome_iff_exists.1 hk
  obtain ⟨cs, hcs⟩ := Recogniser.begins_of_word hcut
  obtain ⟨taken, left, hmark, hrest⟩ := (accepts_sequence_iff rfl hc).1 h
  rw [hcs] at hmark
  obtain ⟨rfl, hleft⟩ := Recogniser.word_eq_some_iff.1 hmark
  obtain rfl := (List.cons.inj hleft).2
  have hform := acceptsInOrder_of_deref rfl (acceptsInOrder_one_iff.1 hrest)
  rw [Cursor.advance_advance] at hform
  exact (accepts_sequence_iff rfl hc).2 ⟨['~', '@'], cs, by rw [hcs]; rfl, hform⟩

theorem accepts_readerConditional {c : Cursor} (hc : Settled c)
    (hk : (TokenKind.readerConditional.lexeme c.rest).isSome)
    (h : Accepts (.rule .taggedLiteral) c) : Accepts (.rule .readerConditional) c := by
  obtain ⟨cut, hcut⟩ := Option.isSome_iff_exists.1 hk
  obtain ⟨taken, left, hmark, hrest⟩ := (accepts_sequence_iff rfl hc).1 h
  have haccepts := acceptsInOrder_one_iff.1 hrest
  rcases Recogniser.firstOf_cons_eq_some_iff.1 hcut with hword | ⟨-, hword⟩
  · obtain ⟨cs, hcs⟩ := Recogniser.begins_of_word hword
    -- The tag leaves a dereference of a list.
    have htag : TokenKind.tag.lexeme c.rest = some (['#', '?'], '@' :: '(' :: cs) := by
      rw [hcs]
      rfl
    rw [hmark] at htag
    obtain ⟨rfl, rfl⟩ := Prod.mk.inj (Option.some.inj htag)
    have hform := acceptsInOrder_one_iff.1 (acceptsInOrder_of_deref rfl haccepts)
    have hlist := acceptsInOrder_of_list rfl hform
    rw [Cursor.advance_advance, Cursor.advance_advance] at hlist
    exact (accepts_sequence_iff rfl hc).2 ⟨['#', '?', '@', '('], cs, by rw [hcs]; rfl, hlist⟩
  · rcases Recogniser.firstOf_cons_eq_some_iff.1 hword with hword | ⟨-, hword⟩
    · obtain ⟨cs, hcs⟩ := Recogniser.begins_of_word hword
      -- The tag leaves a list.
      have htag : TokenKind.tag.lexeme c.rest = some (['#', '?'], '(' :: cs) := by
        rw [hcs]
        rfl
      rw [hmark] at htag
      obtain ⟨rfl, rfl⟩ := Prod.mk.inj (Option.some.inj htag)
      have hlist := acceptsInOrder_of_list rfl haccepts
      rw [Cursor.advance_advance] at hlist
      exact (accepts_sequence_iff rfl hc).2 ⟨['#', '?', '('], cs, by rw [hcs]; rfl, hlist⟩
    · cases hword

end HiccupReader.Clojure
