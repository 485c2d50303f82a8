import HiccupReader.Proofs.Clojure.Deciding
import HiccupReader.Proofs.Clojure.Reach

/-! A form goes the way of the token that the text decides on. Other readings of the same characters
are tried as well, but they fail no further on. -/

namespace HiccupReader.Clojure

open Matching Recogniser

theorem offset_matchParts_one (s : Symbol) (c : Cursor) :
    (matchParts [.one s] c).frontier.offset =
      (matchSymbol matchAt s (skipTrivia c)).frontier.offset := by
  have hpart : (matchPart matchAt (.one s) (skipTrivia c)).frontier.offset =
      (matchSymbol matchAt s (skipTrivia c)).frontier.offset := by
    rw [matchPart, Attempt.offset_andThen_success]
  rw [matchParts, List.map_singleton, Matcher.inOrder]
  cases hresult : (matchPart matchAt (.one s) (skipTrivia c)).result with
  | none => rw [Attempt.offset_andThen_of_none hresult, hpart]
  | some found =>
    rw [Attempt.offset_andThen_of_some hresult, Attempt.offset_andThen_success, hpart]
    exact Nat.max_zero _

theorem refused_one_iff {s : Symbol} {c : Cursor} :
    (matchParts [.one s] c).result = none ↔ ¬ Accepts s (skipTrivia c) := by
  rw [← acceptsInOrder_one_iff, AcceptsInOrder, Bool.not_eq_true, Option.isSome_eq_false_iff,
    Option.isNone_iff_eq_none]

namespace SameCourse

variable {r : Rule} {c d : Cursor}

theorem reach_le_one (h : SameCourse (matchAt .form c) (matchParts [.one (.rule r)] d)
    (skipTrivia d).offset) (hd : c.offset ≤ d.offset) :
    reach (.rule .form) c ≤ reach (.rule r) (skipTrivia d) := by
  have hle := h.le
  have hskip := (reaches_skipTrivia d).offset_le
  rw [offset_matchParts_one] at hle
  exact Nat.max_le.2 ⟨Nat.le_trans (Nat.le_trans hd hskip) (offset_le_reach _ _), hle⟩

theorem reach_eq_one (h : SameCourse (matchAt .form c) (matchParts [.one (.rule r)] d)
    (skipTrivia d).offset) (hrefused : ¬ Accepts (.rule .form) c) :
    reach (.rule .form) c = reach (.rule r) (skipTrivia d) := by
  have hnone : (matchAt .form c).result = none := not_accepts_iff.1 hrefused
  have hrefused' := refused_one_iff.1 (h.result_eq_none.1 hnone)
  have heq := h.eq hnone
  rw [offset_matchParts_one] at heq
  rw [← reach_of_refused hrefused, ← reach_of_refused hrefused']
  exact heq

end SameCourse

section

variable {c : Cursor} {left : List Char}

theorem mapPrefix_course {cs : List Char} (hc : Settled c) (hrest : c.rest = '#' :: ':' :: cs ++ left)
    (hrun : run isSymbolChar (cs ++ left) = some (cs, left)) :
    SameCourse (matchAt .form c)
      (matchParts [.one (.rule .map)] (c.advance ('#' :: ':' :: cs) left))
      (skipTrivia (c.advance ('#' :: ':' :: cs) left)).offset := by
  have hcut := lexeme_mapPrefix hrun
  rw [← hrest] at hcut
  exact .of_alone (r := .namespacedMap) rfl (by decide) (by decide) hc hcut (by rw [hrest]; rfl)

theorem brace_course {cs : List Char} (hc : Settled c) (hrest : c.rest = '\x7b' :: cs) :
    SameCourse (matchAt .form c)
      (matchParts [.one (.rule .forms), .one (.token .rightBrace)] (c.advance ['\x7b'] cs))
      (skipTrivia (c.advance ['\x7b'] cs)).offset := by
  have hcut : TokenKind.leftBrace.lexeme c.rest = some (['\x7b'], cs) := by
    rw [hrest]
    rfl
  exact .of_alone (r := .map) rfl (by decide) (by decide) hc hcut (by rw [hrest]; rfl)

theorem reach_map {cs : List Char} (hc : Settled c) (hrest : c.rest = '\x7b' :: cs)
    (hrefused : ¬ Accepts (.rule .form) c) : reach (.rule .form) c = reach (.rule .map) c := by
  have hcut : TokenKind.leftBrace.lexeme c.rest = some (['\x7b'], cs) := by
    rw [hrest]
    rfl
  have hform := brace_course hc hrest
  have hmap := SameCourse.of_opener (r := .map) rfl (by decide) hc hcut
  have hnone : (matchAt .form c).result = none := not_accepts_iff.1 hrefused
  have hnone' : (matchAt .map c).result = none := hmap.result_eq_none.2 (hform.result_eq_none.1 hnone)
  rw [← reach_of_refused hrefused, ← reach_of_refused (not_accepts_iff.2 hnone'), hform.eq hnone,
    hmap.eq hnone']

theorem TwinMark.reach_eq {d : Char} {k j : TokenKind} {r s : Rule} {parts : List Part}
    (h : TwinMark d k j r s parts) {cs : List Char} (hc : Settled c)
    (hrest : c.rest = '#' :: d :: cs) (hrefused : ¬ Accepts (.rule .form) c) :
    reach (.rule .form) (skipTrivia (c.advance ['#'] (d :: cs))) = reach (.rule .form) c := by
  have hsettled : Settled (c.advance ['#'] (d :: cs)) := h.settled rfl
  have hcut := h.hashCut cs
  rw [← hrest] at hcut
  have hwhole := SameCourse.of_alone h.hashProduction h.hashOpens h.hashOnly hc hcut
    (by rw [hrest, h.hashAlone])
  have hinner := SameCourse.of_alone (c := c.advance ['#'] (d :: cs)) h.production h.opens
    h.only hsettled (h.cut cs) (h.alone cs)
  rw [Cursor.advance_advance, List.singleton_append] at hinner
  have hnone : (matchAt .form c).result = none := not_accepts_iff.1 hrefused
  have hnone' := hinner.result_eq_none.2 (hwhole.result_eq_none.1 hnone)
  rw [hsettled, ← reach_of_refused hrefused, ← reach_of_refused (not_accepts_iff.2 hnone'),
    hwhole.eq hnone, hinner.eq hnone']

theorem reach_le_of_tag {body : List Char} (hc : Settled c) (hrest : c.rest = '#' :: body ++ left)
    (hhead : ∃ d ∈ body.head?, isSymbolHead d = true)
    (hrun : run isSymbolChar (body ++ left) = some (body, left))
    (hrefused : ¬ Accepts (.rule .form) c) :
    reach (.rule .form) (skipTrivia (c.advance ('#' :: body) left)) ≤ reach (.rule .form) c := by
  have hcut := lexeme_tag_of_run hhead hrun
  rw [← hrest] at hcut
  have hnone : ∀ x ∈ openers, ¬ Accepts x c := fun x hx haccepts =>
    hrefused (accepts_form_iff.2 ⟨x, hx, haccepts⟩)
  have htag : Symbol.rule .taggedLiteral ∈ openers := by decide
  have hrefused' : ¬ Accepts (.rule .form) (skipTrivia (c.advance ('#' :: body) left)) :=
    fun haccepts => hrefused (accepts_form_of_tag hc hrest hhead hrun haccepts)
  have hreach := reach_opener (r := .taggedLiteral) rfl hc hcut
  rw [offset_matchParts_one] at hreach
  have hle := reach_le_reachFirst hnone _ htag
  rw [← reach_form, hreach] at hle
  rw [← reach_of_refused hrefused']
  exact Nat.le_trans (Nat.le_max_right _ _) hle

end

namespace QuoteMark

variable {mark cs : List Char} {k : TokenKind} {r : Rule} {c : Cursor}

theorem course (h : QuoteMark mark k r) (hrest : c.rest = mark ++ cs) :
    SameCourse (matchAt .form (skipTrivia c)) (matchParts [.one (.rule .form)] (c.advance mark cs))
      (skipTrivia (c.advance mark cs)).offset := by
  have hc := h.settled hrest
  rw [hc]
  exact .of_alone h.production h.opens h.only hc (h.cut_at hrest) (by rw [hrest, h.alone])

theorem reach_eq (h : QuoteMark mark k r) (hrest : c.rest = mark ++ cs)
    (hrefused : ¬ Accepts (.rule .form) (skipTrivia c)) :
    reach (.rule .form) (skipTrivia (c.advance mark cs)) = reach (.rule .form) (skipTrivia c) :=
  ((h.course hrest).reach_eq_one hrefused).symm

end QuoteMark

theorem Marked.reach_le {body left : List Char} {ks : List TokenKind} {c : Cursor}
    (h : Marked body ks) (hrest : c.rest = body ++ left)
    (hrun : run isSymbolChar (body ++ left) = some (body, left))
    (hnoMap : (splitTrivia false left).2.head? ≠ some '\x7b') :
    reach (.rule .form) (skipTrivia c) ≤ (skipTrivia (c.advance body left)).offset := by
  induction h generalizing c with
  | mapPrefix cs =>
    have hc : Settled c := .of_rest_cons hrest (by decide) rfl
    have hcourse := mapPrefix_course hc hrest (run_tail (run_tail hrun))
    have hnone : TokenKind.leftBrace.lexeme
        (skipTrivia (c.advance ('#' :: ':' :: cs) left)).rest = none := by
      cases hbrace : TokenKind.leftBrace.lexeme
        (skipTrivia (c.advance ('#' :: ':' :: cs) left)).rest with
      | none => rfl
      | some found =>
        obtain ⟨rest, hplace⟩ := begins_of_word hbrace
        have hleft : (splitTrivia false left).2 = '\x7b' :: rest := hplace
        exact absurd (by rw [hleft]; rfl) hnoMap
    obtain ⟨-, hmap⟩ := refused_opener (r := .map) rfl (settled_skipTrivia _) hnone
    rw [hc, ← hmap]
    exact hcourse.reach_le_one (Nat.le_add_right _ _)
  | @quoted mark cs _ _ _ hmark _ ih =>
    rw [List.append_assoc] at hrest
    have hinner := ih (c := c.advance mark (cs ++ left)) rfl (run_of_append hrun)
    rw [Cursor.advance_advance] at hinner
    have hsettled := hmark.settled hrest
    have hle := (hmark.course hrest).reach_le_one (by rw [hsettled]; exact Nat.le_add_right _ _)
    exact Nat.le_trans hle hinner

/-- Where no form stands behind a discard mark, none behind the tag that begins with the mark is
tried further on, unless the mark is read again. -/
theorem reach_le_of_refused {c : Cursor} {body left : List Char} (hrest : c.rest = body ++ left)
    (hrun : run isSymbolChar (body ++ left) = some (body, left))
    (hhidden : ¬ opensHidden body = true) (hlex : Lexable c.rest)
    (hmap : (∃ ks, Marked body ks) → (splitTrivia false left).2.head? = some '\x7b')
    (hrefused : ¬ Accepts (.rule .form) (skipTrivia c))
    (hafter : ¬ Accepts (.rule .form) (skipTrivia (c.advance body left))) :
    reach (.rule .form) (skipTrivia (c.advance body left)) ≤ reach (.rule .form) (skipTrivia c) := by
  fun_induction opensHidden body generalizing c with
  | case1 => exact absurd rfl hhidden
  | case2 cs ih =>
    have hmark : c.rest = ['\x27'] ++ (cs ++ left) := hrest
    rw [← quoteMark_quote.reach_eq hmark hrefused]
    rw [quoteMark_quote.accepts_form_iff hmark] at hrefused
    have hinner := ih (c := c.advance ['\x27'] (cs ++ left)) rfl (run_tail hrun) hhidden
      (quoteMark_quote.lexable hmark hlex)
      (fun hmarked => hmarked.elim fun _ hks => hmap ⟨_, .quoted quoteMark_quote hks⟩)
      hrefused (by rwa [Cursor.advance_advance])
    rwa [Cursor.advance_advance] at hinner
  | case3 cs ih =>
    have hmark : c.rest = ['#', '\x27'] ++ (cs ++ left) := hrest
    rw [← quoteMark_varQuote.reach_eq hmark hrefused]
    rw [quoteMark_varQuote.accepts_form_iff hmark] at hrefused
    have hinner := ih (c := c.advance ['#', '\x27'] (cs ++ left)) rfl (run_tail (run_tail hrun))
      hhidden (quoteMark_varQuote.lexable hmark hlex)
      (fun hmarked => hmarked.elim fun _ hks => hmap ⟨_, .quoted quoteMark_varQuote hks⟩)
      hrefused (by rwa [Cursor.advance_advance])
    rwa [Cursor.advance_advance] at hinner
  | case4 body hbang hquote hvar =>
    cases body with
    | nil =>
      have hsame : c.advance [] left = c := advance_nil c hrest
      exact Nat.le_of_eq (by rw [hsame])
    | cons d ds =>
      have hc := settled_of_run hrest hrun hbang
      rw [hc] at hrefused ⊢
      cases bareHash_of_refused hc hrest hrun hquote hvar hlex hrefused with
      | twin cs htwin => exact Nat.le_of_eq (htwin.reach_eq hc hrest hrefused)
      | mapPrefix es =>
        -- A map stands behind the prefix, and it is tried as a form as far as it is as a map.
        obtain ⟨more, hmore⟩ := List.head?_eq_some_iff.1 (hmap ⟨_, .mapPrefix es⟩)
        have hplace : (skipTrivia (c.advance ('#' :: ':' :: es) left)).rest = '\x7b' :: more := hmore
        have hcourse := mapPrefix_course hc hrest (run_tail (run_tail hrun))
        have hform := reach_map (settled_skipTrivia _) hplace hafter
        exact Nat.le_of_eq (hform.trans (hcourse.reach_eq_one hrefused).symm)
      | tag es _ hhead => exact reach_le_of_tag hc hrest ⟨_, rfl, hhead⟩ (run_tail hrun) hrefused

section

variable {c : Cursor} {cs : List Char}

theorem reach_le_parts {r : Rule} {parts : List Part} {d : Cursor}
    (h : SameCourse (matchAt r c) (matchParts parts d) (skipTrivia d).offset)
    (hd : c.offset ≤ d.offset) :
    reach (.rule r) c ≤ max (skipTrivia d).offset (matchParts parts d).frontier.offset := by
  have hskip := (reaches_skipTrivia d).offset_le
  exact Nat.max_le.2 ⟨by omega, h.le⟩

theorem deref_course (hc : Settled c) (hrest : c.rest = '@' :: cs) :
    SameCourse (matchAt .form c) (matchParts [.one (.rule .form)] (c.advance ['@'] cs))
      (skipTrivia (c.advance ['@'] cs)).offset :=
  .of_alone (r := .deref) rfl (by decide) (by decide) hc (by rw [hrest]; rfl) (by rw [hrest]; rfl)

theorem list_course (hc : Settled c) (hrest : c.rest = '(' :: cs) :
    SameCourse (matchAt .form c)
      (matchParts [.one (.rule .forms), .one (.token .rightParen)] (c.advance ['('] cs))
      (skipTrivia (c.advance ['('] cs)).offset :=
  .of_alone (r := .list) rfl (by decide) (by decide) hc (by rw [hrest]; rfl) (by rw [hrest]; rfl)

theorem reach_awaiting {r : Rule} {k : TokenKind} {taken left : List Char}
    (hr : r.production = .prefixed k) (hc : Settled c) (hcut : k.lexeme c.rest = some (taken, left)) :
    reach (.rule r) c ≤ reach (.rule .form) (skipTrivia (c.advance taken left)) := by
  have hfloor := SameCourse.offset_le c taken left
  rw [reach_opener hr hc hcut, offset_matchParts_one]
  exact Nat.max_le.2 ⟨Nat.le_trans hfloor (offset_le_reach _ _), Nat.le_max_right _ _⟩

theorem reach_unquote_le (hc : Settled c) (hrest : c.rest = '~' :: '@' :: cs) :
    reach (.rule .unquote) c ≤ max (skipTrivia (c.advance ['~', '@'] cs)).offset
      (matchParts [.one (.rule .form)] (c.advance ['~', '@'] cs)).frontier.offset := by
  have hcut : TokenKind.unquote.lexeme c.rest = some (['~'], '@' :: cs) := by
    rw [hrest]
    rfl
  have hle := reach_awaiting (r := .unquote) rfl hc hcut
  have hsettled : Settled (c.advance ['~'] ('@' :: cs)) := .of_rest_cons rfl (by decide) rfl
  have hform := reach_le_parts (deref_course hsettled rfl) (Nat.le_add_right _ _)
  rw [hsettled] at hle
  rw [Cursor.advance_advance] at hform
  exact Nat.le_trans hle hform

theorem reach_questionTag_le (hc : Settled c) {mark : List Char}
    (hmark : mark = ['#', '?', '('] ∨ mark = ['#', '?', '@', '(']) (hrest : c.rest = mark ++ cs) :
    reach (.rule .taggedLiteral) c ≤ max (skipTrivia (c.advance mark cs)).offset
      (matchParts [.one (.rule .forms), .one (.token .rightParen)]
        (c.advance mark cs)).frontier.offset := by
  rcases hmark with rfl | rfl
  · have hcut : TokenKind.tag.lexeme c.rest = some (['#', '?'], '(' :: cs) := by
      rw [hrest]
      rfl
    have hle := reach_awaiting (r := .taggedLiteral) rfl hc hcut
    have hsettled : Settled (c.advance ['#', '?'] ('(' :: cs)) := .of_rest_cons rfl (by decide) rfl
    have hform := reach_le_parts (list_course hsettled rfl) (Nat.le_add_right _ _)
    rw [hsettled] at hle
    rw [Cursor.advance_advance] at hform
    exact Nat.le_trans hle hform
  · have hcut : TokenKind.tag.lexeme c.rest = some (['#', '?'], '@' :: '(' :: cs) := by
      rw [hrest]
      rfl
    have hle := reach_awaiting (r := .taggedLiteral) rfl hc hcut
    have hsettled : Settled (c.advance ['#', '?'] ('@' :: '(' :: cs)) :=
      .of_rest_cons rfl (by decide) rfl
    have hsettled' : Settled (c.advance ['#', '?', '@'] ('(' :: cs)) :=
      .of_rest_cons rfl (by decide) rfl
    have hderef : reach (.rule .form) (c.advance ['#', '?'] ('@' :: '(' :: cs)) ≤
        reach (.rule .form) (skipTrivia (c.advance ['#', '?', '@'] ('(' :: cs))) := by
      have hinner := (deref_course hsettled rfl).reach_le_one (Nat.le_add_right _ _)
      rwa [Cursor.advance_advance] at hinner
    have hform := reach_le_parts (list_course hsettled' rfl) (Nat.le_add_right _ _)
    rw [hsettled] at hle
    rw [hsettled'] at hderef
    rw [Cursor.advance_advance] at hform
    exact Nat.le_trans (Nat.le_trans hle hderef) hform

/-- Where no form stands behind a discard mark that is not read again, none stands behind the tag
that begins with the mark, and none is tried further on there. -/
theorem refused_tag_of_discard (hc : Settled c) (hread : Readable c)
    (hrest : c.rest = '#' :: '_' :: cs) (hnot : ¬ Rereads c.rest)
    (hrefused : ¬ Accepts (.rule .form) (skipTrivia (c.advance ['#', '_'] cs)))
    {taken left : List Char} (hcut : TokenKind.tag.lexeme c.rest = some (taken, left)) :
    ¬ Accepts (.rule .taggedLiteral) c ∧ reach (.rule .taggedLiteral) c ≤
      (matchParts [.one (.rule .form)] (c.advance ['#', '_'] cs)).frontier.offset := by
  obtain ⟨body, rfl⟩ := exists_body_of_discard hcut (by rw [hrest]; exact discard_preferred cs)
  have htext : '#' :: '_' :: body ++ left = c.rest := TokenKind.tag.lexeme_cuts _ _ _ hcut
  obtain rfl : body ++ left = cs := by
    rw [hrest] at htext
    exact (List.cons.inj (List.cons.inj htext).2).2
  have hrun : Recogniser.run isSymbolChar (body ++ left) = some (body, left) := by
    rw [← htext] at hcut
    exact run_tail (run_of_lexeme_tag hcut)
  have hhidden : ¬ opensHidden body = true := fun h =>
    hread.not_opensHidden hc hrest (opensHidden_append h left)
  have hlex : Lexable (body ++ left) := by
    obtain ⟨k, taken, rest, hfirst, ⟨hk, -⟩, hreadable⟩ :=
      hread.exists_first hc (by rw [hrest]; simp)
    rw [hrest] at hfirst hk
    obtain rfl := (discard_preferred (body ++ left)).unique hk
    obtain ⟨-, rfl⟩ := Prod.mk.inj (Option.some.inj hfirst)
    exact hreadable.lexable
  have hmap : (∃ ks, Marked body ks) → (splitTrivia false left).2.head? = some '\x7b' := by
    rintro ⟨ks, hks⟩
    by_contra hnoMap
    exact hnot ⟨body, left, ks, htext.symm, hks, hrun, hnoMap⟩
  have hplace : (c.advance ['#', '_'] (body ++ left)).advance body left =
      c.advance ('#' :: '_' :: body) left := Cursor.advance_advance ..
  have hafter : ¬ Accepts (.rule .form) (skipTrivia (c.advance ('#' :: '_' :: body) left)) := by
    intro haccepts
    rw [← hplace] at haccepts
    obtain ⟨hmarked, hnoMap⟩ := marked_of_refused (c := c.advance ['#', '_'] (body ++ left)) rfl hrun
      hhidden hlex haccepts hrefused
    exact hnoMap (hmap hmarked)
  have hle := reach_le_of_refused (c := c.advance ['#', '_'] (body ++ left)) rfl hrun hhidden hlex
    hmap hrefused (by rw [hplace]; exact hafter)
  rw [hplace] at hle
  constructor
  · intro haccepts
    obtain ⟨taken, rest, hcut', hparts⟩ := (accepts_sequence_iff rfl hc).1 haccepts
    rw [hcut] at hcut'
    obtain ⟨rfl, rfl⟩ := Prod.mk.inj (Option.some.inj hcut')
    exact hafter (acceptsInOrder_one_iff.1 hparts)
  · have htag := reach_awaiting (r := .taggedLiteral) rfl hc hcut
    rw [offset_matchParts_one]
    refine Nat.le_trans (Nat.le_trans htag hle) (Nat.le_of_eq ?_)
    exact (reach_of_refused hrefused).symm

end

theorem leads_opener {r : Rule} {k : TokenKind} {parts : List Part}
    (hr : r.production = .sequence (.one (.token k) :: parts)) (hmem : Symbol.rule r ∈ openers) :
    (Symbol.rule r).leads = [k] := by
  obtain ⟨s, j, more, hs, hproduction, hleads, -⟩ := openers_production hmem
  obtain rfl := Symbol.rule.inj hs
  rw [hr] at hproduction
  obtain rfl : k = j := by
    injection hproduction with hparts
    injection hparts with hpart
    exact Symbol.token.inj (Part.one.inj hpart)
  exact hleads

section

variable {r s : Rule} {k j : TokenKind} {parts : List Part} {c : Cursor} {taken left : List Char}

theorem refused_rival (hk : k.Preferred c.rest) (hnot : ¬ Rereads c.rest) (hread : Readable c)
    (hc : Settled c) (hr : r.production = .sequence (.one (.token k) :: parts))
    (hmem : Symbol.rule r ∈ openers) (honly : ∀ x ∈ openers, k ∈ x.leads → x = .rule r)
    (hcut : k.lexeme c.rest = some (taken, left)) (hs : Symbol.rule s ∈ openers)
    (hj : j ∈ (Symbol.rule s).leads) (hjsome : (j.lexeme c.rest).isSome) (hrival : j ∈ k.rivals)
    (hrefused : ¬ Accepts (.rule r) c) :
    ¬ Accepts (.rule s) c ∧ reach (.rule s) c ≤
      max (skipTrivia (c.advance taken left)).offset
        (matchParts parts (c.advance taken left)).frontier.offset := by
  have htext : taken ++ left = c.rest := k.lexeme_cuts _ _ _ hcut
  have rule_eq : ∀ {q : Rule}, Symbol.rule q ∈ openers → k ∈ (Symbol.rule q).leads → q = r :=
    fun hq hlead => Symbol.rule.inj (honly _ hq hlead)
  have single : ∀ {q : Rule}, Symbol.rule q ∈ openers → k ∈ (Symbol.rule q).leads →
      q.production = .single k → False := by
    intro q hq hlead hsingle
    obtain rfl := rule_eq hq hlead
    exact hrefused (accepts_single hsingle hc hk.accepts)
  cases k with
  | number => exact (single (q := .number) (by decide) (by decide) rfl).elim
  | nil => exact (single (q := .nil) (by decide) (by decide) rfl).elim
  | boolean => exact (single (q := .boolean) (by decide) (by decide) rfl).elim
  | unquoteSplicing =>
    obtain rfl := rule_eq (q := .unquoteSplicing) (by decide) (by decide)
    cases hr
    obtain rfl := List.mem_singleton.1 hrival
    obtain rfl := Symbol.rule.inj ((openers_of_lead _ hs).2 hj)
    obtain ⟨rfl, hrest⟩ := Recogniser.word_eq_some_iff.1 hcut
    exact ⟨fun h => hrefused (accepts_unquoteSplicing hc hk.accepts h), reach_unquote_le hc hrest⟩
  | readerConditional =>
    obtain rfl := rule_eq (q := .readerConditional) (by decide) (by decide)
    cases hr
    obtain rfl := List.mem_singleton.1 hrival
    obtain rfl := Symbol.rule.inj ((openers_of_lead _ hs).1 hj)
    have hmark := (eq_of_firstOf_words hcut).symm
    exact ⟨fun h => hrefused (accepts_readerConditional hc hk.accepts h),
      reach_questionTag_le hc hmark htext.symm⟩
  | discard =>
    obtain rfl := rule_eq (q := .discard) (by decide) (by decide)
    cases hr
    obtain rfl := List.mem_singleton.1 hrival
    obtain rfl := Symbol.rule.inj ((openers_of_lead _ hs).1 hj)
    obtain ⟨⟨tag, rest⟩, htag⟩ := Option.isSome_iff_exists.1 hjsome
    obtain ⟨rfl, hrest⟩ := Recogniser.word_eq_some_iff.1 hcut
    have hform : ¬ Accepts (.rule .form) (skipTrivia (c.advance ['#', '_'] left)) := fun h =>
      hrefused ((accepts_sequence_iff rfl hc).2 ⟨_, _, hcut, acceptsInOrder_one_iff.2 h⟩)
    obtain ⟨hrefused', hle⟩ := refused_tag_of_discard hc hread hrest hnot hform htag
    exact ⟨hrefused', Nat.le_trans hle (Nat.le_max_right _ _)⟩
  | _ => cases hrival

theorem Reread.refused_discard {body left : List Char} {ks : List TokenKind}
    (h : Reread body left ks) (hc : Settled c) (hrest : c.rest = '#' :: '_' :: body ++ left) :
    ¬ Accepts (.rule .discard) c ∧ reach (.rule .discard) c ≤
      (skipTrivia (c.advance ('#' :: '_' :: body) left)).offset := by
  have hcut : TokenKind.discard.lexeme c.rest = some (['#', '_'], body ++ left) := by
    rw [hrest]
    rfl
  have hform := h.marked.reach_le (c := c.advance ['#', '_'] (body ++ left)) rfl h.run h.noMap
  rw [Cursor.advance_advance] at hform
  exact ⟨h.refuses hrest, Nat.le_trans (reach_awaiting (r := .discard) rfl hc hcut) hform⟩

/-- A form takes the course of what stands behind the token that is decided on. -/
theorem Decided.course (hk : Decided k c.rest) (hread : Readable c) (hc : Settled c)
    (hr : r.production = .sequence (.one (.token k) :: parts)) (hmem : Symbol.rule r ∈ openers)
    (honly : ∀ x ∈ openers, k ∈ x.leads → x = .rule r)
    (hcut : k.lexeme c.rest = some (taken, left)) :
    SameCourse (matchAt .form c) (matchParts parts (c.advance taken left))
      (skipTrivia (c.advance taken left)).offset := by
  refine .of_form hr hmem hc hcut fun x hx hxr hearlier => ?_
  obtain ⟨s, j, more, rfl, hs, hleads, -⟩ := openers_production hx
  have hj : j ∈ (Symbol.rule s).leads := by
    rw [hleads]
    exact List.mem_singleton_self j
  cases hjcut : j.lexeme c.rest with
  | none =>
    obtain ⟨hrefused, hreach⟩ := refused_opener hs hc hjcut
    have hfloor := SameCourse.offset_le c taken left
    exact ⟨hrefused, by omega⟩
  | some found =>
    have hjsome : (j.lexeme c.rest).isSome := by rw [hjcut]; rfl
    rcases hk with ⟨⟨body, left', ks, hrest, hreread⟩, rfl⟩ | ⟨hnot, hpreferred⟩
    · obtain ⟨rfl, rfl⟩ := hreread.eq_of_lexeme hrest hcut
      have hdiscard := discard_preferred (body ++ left)
      rw [hrest] at hjsome
      rcases hdiscard.eq_or_mem_rivals hjsome with rfl | hrival
      · have discards : ∀ x ∈ openers, .discard ∈ x.leads → x = .rule .discard := by decide
        obtain rfl := Symbol.rule.inj (discards _ hx hj)
        obtain ⟨hrefused, hle⟩ := hreread.refused_discard hc hrest
        exact ⟨hrefused, Nat.le_trans hle (Nat.le_max_left _ _)⟩
      · obtain rfl := List.mem_singleton.1 hrival
        exact absurd (honly _ hx hj) hxr
    · rcases hpreferred.eq_or_mem_rivals hjsome with rfl | hrival
      · exact absurd (honly _ hx hj) hxr
      · have hlead : k ∈ (Symbol.rule r).leads := by
          rw [leads_opener hr hmem]
          exact List.mem_singleton_self k
        have hbefore := openers_before_rivals _ hmem k hlead _ hx j hj hrival
        exact refused_rival hpreferred hnot hread hc hr hmem honly hcut hx hj hjsome hrival
          (hearlier _ hbefore)

end

end HiccupReader.Clojure
