import HiccupReader.Proofs.Clojure.Openers
import HiccupReader.Proofs.Clojure.Relexing

/-! A discard mark is read again where no form stands behind it: the mark and what follows may be a
tag. Behind the mark and quote marks there is then the prefix of a namespaced map, with no map, or
else a comment. -/

namespace HiccupReader.Clojure

open Matching Recogniser

/-- A mark that may stand in a tag and that makes one form of another. -/
structure QuoteMark (mark : List Char) (k : TokenKind) (r : Rule) : Prop where
  production : r.production = .prefixed k
  opens : Symbol.rule r ∈ openers
  only : ∀ x ∈ openers, k ∈ x.leads → x = .rule r
  unrivalled : ∀ p : TokenKind, k ∉ p.rivals
  bare : ∀ cs, (splitTrivia false (mark ++ cs)).2 = mark ++ cs
  alone : ∀ cs, candidates (mark ++ cs) = [k]
  cut : ∀ cs, k.lexeme (mark ++ cs) = some (mark, cs)

theorem quoteMark_quote : QuoteMark ['\x27'] .quote .quote where
  production := rfl
  opens := by decide
  only := by decide
  unrivalled := by
    intro p
    cases p <;> decide
  bare _ := rfl
  alone _ := rfl
  cut _ := rfl

theorem quoteMark_varQuote : QuoteMark ['#', '\x27'] .varQuote .varQuote where
  production := rfl
  opens := by decide
  only := by decide
  unrivalled := by
    intro p
    cases p <;> decide
  bare _ := rfl
  alone _ := rfl
  cut _ := rfl

/-- Quote marks and the prefix of a namespaced map, with the kinds that the lexer cuts them into. -/
inductive Marked : List Char → List TokenKind → Prop
  | mapPrefix (cs : List Char) : Marked ('#' :: ':' :: cs) [.namespacedMapPrefix]
  | quoted {mark cs : List Char} {k : TokenKind} {r : Rule} {ks : List TokenKind} :
    QuoteMark mark k r → Marked cs ks → Marked (mark ++ cs) (k :: ks)

def opensHidden : List Char → Bool
  | '#' :: '!' :: _ => true
  | '\x27' :: cs => opensHidden cs
  | '#' :: '\x27' :: cs => opensHidden cs
  | _ => false

/-- The text begins with a discard mark, behind which a comment would begin. -/
def HidesComment (text : String) : Prop :=
  match text.toList with
  | '#' :: '_' :: body => opensHidden body = true
  | _ => False

instance : DecidablePred HidesComment := fun text => by
  unfold HidesComment
  split <;> infer_instance

theorem hidesComment_iff {text : String} :
    HidesComment text ↔ ∃ body, text.toList = '#' :: '_' :: body ∧ opensHidden body = true := by
  unfold HidesComment
  generalize text.toList = cs
  split
  · next body => simp
  · next hother =>
    simp only [false_iff, not_exists, not_and]
    intro body hbody
    exact absurd hbody (hother body)

/-- A tag that begins with a discard mark, which stays a tag because no form stands behind the
mark. -/
structure Reread (body left : List Char) (ks : List TokenKind) : Prop where
  marked : Marked body ks
  run : run isSymbolChar (body ++ left) = some (body, left)
  noMap : (splitTrivia false left).2.head? ≠ some '\x7b'

/-- The kind is what the lexer reads here, or a tag where a discard mark is read again. -/
def Settles (k : TokenKind) (cs : List Char) : Prop :=
  k.Preferred cs ∨ k = .tag ∧ ∃ body left ks, cs = '#' :: '_' :: body ++ left ∧ Reread body left ks

theorem run_of_append {p : Char → Bool} {w cs left : List Char}
    (h : run p (w ++ cs ++ left) = some (w ++ cs, left)) :
    run p (cs ++ left) = some (cs, left) := by
  rw [run_eq_some_iff] at h ⊢
  exact ⟨(List.forall_mem_append.1 h.1).2, h.2⟩

theorem run_tail {p : Char → Bool} {c : Char} {cs left : List Char}
    (h : run p (c :: cs ++ left) = some (c :: cs, left)) : run p (cs ++ left) = some (cs, left) :=
  run_of_append (w := [c]) h

theorem run_cons {p : Char → Bool} {c : Char} {cs left : List Char} (hc : p c = true)
    (h : run p (cs ++ left) = some (cs, left)) :
    run p (c :: cs ++ left) = some (c :: cs, left) := by
  rw [run_eq_some_iff] at h ⊢
  exact ⟨List.forall_mem_cons.2 ⟨hc, h.1⟩, h.2⟩

theorem not_separator_of_symbolChar {c : Char} (h : isSymbolChar c = true) :
    isBlank c = false ∧ c ≠ ';' := by
  have free : Spares isSymbolChar := by decide
  have outside : ¬ (isBlank c = true ∨ c = ';') := fun hsep => by
    rw [free c (mem_separators hsep)] at h
    cases h
  rw [not_or, Bool.not_eq_true] at outside
  exact outside

theorem settled_of_run {c : Cursor} {d : Char} {ds left : List Char}
    (hrest : c.rest = d :: ds ++ left)
    (hrun : run isSymbolChar (d :: ds ++ left) = some (d :: ds, left))
    (hbang : ∀ cs, d :: ds ≠ '#' :: '!' :: cs) : Settled c := by
  obtain ⟨hchars, hstop⟩ := run_eq_some_iff.1 hrun
  obtain ⟨hblank, hsemicolon⟩ := not_separator_of_symbolChar (hchars d (List.mem_cons_self ..))
  refine .of_rest_cons hrest hblank ?_
  by_contra hopens
  rw [Bool.not_eq_false] at hopens
  rcases (opensComment_iff _).1 hopens with ⟨cs, he⟩ | ⟨cs, he⟩
  · exact hsemicolon (List.cons.inj he).1
  · obtain ⟨rfl, hcs⟩ := List.cons.inj he
    cases ds with
    | nil =>
      obtain rfl : left = '!' :: cs := hcs
      cases hstop
    | cons e es =>
      obtain ⟨rfl, -⟩ := List.cons.inj hcs
      exact hbang es rfl

theorem lexeme_tag_of_run {body left : List Char} (hhead : ∃ c ∈ body.head?, isSymbolHead c = true)
    (hrun : run isSymbolChar (body ++ left) = some (body, left)) :
    TokenKind.tag.lexeme ('#' :: body ++ left) = some ('#' :: body, left) := by
  rw [TokenKind.lexeme, inOrder_cons_eq_some_iff]
  refine ⟨['#'], body ++ left, body, word_eq_some_iff.2 ⟨rfl, rfl⟩, ?_, rfl⟩
  rw [inOrder_single]
  exact symbolText_eq_some_iff.2 ⟨hhead, hrun⟩

theorem isSymbolHead_of_tag {c : Char} {cs : List Char} {found : List Char × List Char}
    (h : TokenKind.tag.lexeme ('#' :: c :: cs) = some found) : isSymbolHead c = true := by
  rw [TokenKind.lexeme] at h
  obtain ⟨first, mid, more, hmark, hrest, -⟩ := inOrder_cons_eq_some_iff.1 h
  obtain ⟨-, he⟩ := word_eq_some_iff.1 hmark
  obtain rfl : c :: cs = mid := (List.cons.inj he).2
  obtain ⟨text, htext⟩ := begins_of_inOrder hrest
  obtain ⟨first, hfirst⟩ := begins_of_inOrder htext
  obtain ⟨d, hd, -, he⟩ := oneOf_eq_some_iff.1 hfirst
  rwa [(List.cons.inj he).1]

theorem mem_hashTable_of_isSome {k : TokenKind} {d : Char} {cs : List Char}
    (hsome : (k.lexeme ('#' :: d :: cs)).isSome) (hhead : ¬ isSymbolHead d = true) :
    ∃ ks, (d, ks) ∈ hashTable ∧ k ∈ ks := by
  obtain ⟨found, hfound⟩ := Option.isSome_iff_exists.1 hsome
  have hmem : k ∈ hashCandidates d := lexeme_mem_candidates hfound
  unfold hashCandidates at hmem
  cases hlookup : hashTable.lookup d with
  | none =>
    rw [hlookup] at hmem
    obtain rfl := List.mem_singleton.1 hmem
    exact absurd (isSymbolHead_of_tag hfound) hhead
  | some ks =>
    rw [hlookup] at hmem
    exact ⟨ks, mem_of_lookup hlookup, hmem⟩

def Lexable (cs : List Char) : Prop :=
  ∃ c ts stop, c.rest = cs ∧ Spells TokenKind.Preferred c ts stop ∧ (skipTrivia stop).rest = []

theorem Lexable.exists_first {c : Cursor} (h : Lexable c.rest) (hc : Settled c)
    (hne : c.rest ≠ []) : ∃ k : TokenKind, ∃ taken left,
      k.lexeme c.rest = some (taken, left) ∧ Lexable left := by
  obtain ⟨d, ts, stop, hd, hspells, hend⟩ := h
  have hskip : (skipTrivia d).rest = c.rest := by
    have hrest := settled_iff.1 hc
    rw [← hd] at hrest ⊢
    exact hrest
  cases hspells with
  | done =>
    rw [hskip] at hend
    exact absurd hend hne
  | @token k _ _ taken left ts hcut _ hrest =>
    rw [hskip] at hcut
    exact ⟨k, taken, left, hcut, _, _, _, rfl, hrest, hend⟩

theorem advance_nil (c : Cursor) {cs : List Char} (h : c.rest = cs) : c.advance [] cs = c := by
  subst h
  rfl

def literalKinds : List TokenKind :=
  [.number, .character, .nil, .boolean, .keyword, .string, .regex, .symbolicValue, .symbol]

theorem accepts_form_of_literal {k : TokenKind} (hk : k ∈ literalKinds) {c : Cursor}
    (hc : Settled c) (hsome : (k.lexeme c.rest).isSome) : Accepts (.rule .form) c := by
  have rules : ∀ j ∈ literalKinds, ∃ r : Rule, Symbol.rule r ∈ openers ∧
      r.production = .single j := by
    rw [literalKinds]
    simp only [List.forall_mem_cons]
    exact ⟨⟨.number, by decide, rfl⟩, ⟨.character, by decide, rfl⟩, ⟨.nil, by decide, rfl⟩,
      ⟨.boolean, by decide, rfl⟩, ⟨.keyword, by decide, rfl⟩, ⟨.string, by decide, rfl⟩,
      ⟨.regex, by decide, rfl⟩, ⟨.symbolicValue, by decide, rfl⟩, ⟨.symbol, by decide, rfl⟩,
      by simp⟩
  obtain ⟨r, hmem, hr⟩ := rules k hk
  exact accepts_form_iff.2 ⟨.rule r, hmem, accepts_single hr hc hsome⟩

/-- A mark that opens a form, alone and also behind a hash sign, with the same parts behind it. -/
structure TwinMark (d : Char) (k j : TokenKind) (r s : Rule) (parts : List Part) : Prop where
  production : r.production = .sequence (.one (.token k) :: parts)
  hashProduction : s.production = .sequence (.one (.token j) :: parts)
  opens : Symbol.rule r ∈ openers
  hashOpens : Symbol.rule s ∈ openers
  only : ∀ x ∈ openers, k ∈ x.leads → x = .rule r
  hashOnly : ∀ x ∈ openers, j ∈ x.leads → x = .rule s
  bare : ∀ cs, (splitTrivia false (d :: cs)).2 = d :: cs
  alone : ∀ cs, candidates (d :: cs) = [k]
  hashAlone : ∀ cs, candidates ('#' :: d :: cs) = [j]
  cut : ∀ cs, k.lexeme (d :: cs) = some ([d], cs)
  hashCut : ∀ cs, j.lexeme ('#' :: d :: cs) = some (['#', d], cs)

theorem twinMark_brace : TwinMark '\x7b' .leftBrace .hashBrace .map .set
    [.one (.rule .forms), .one (.token .rightBrace)] :=
  ⟨rfl, rfl, by decide, by decide, by decide, by decide, fun _ => rfl, fun _ => rfl, fun _ => rfl,
    fun _ => rfl, fun _ => rfl⟩

theorem twinMark_paren : TwinMark '(' .leftParen .hashParen .list .fnLiteral
    [.one (.rule .forms), .one (.token .rightParen)] :=
  ⟨rfl, rfl, by decide, by decide, by decide, by decide, fun _ => rfl, fun _ => rfl, fun _ => rfl,
    fun _ => rfl, fun _ => rfl⟩

theorem twinMark_caret : TwinMark '^' .caret .caret .metadata .metadata
    [.one (.rule .form), .one (.rule .form)] :=
  ⟨rfl, rfl, by decide, by decide, by decide, by decide, fun _ => rfl, fun _ => rfl, fun _ => rfl,
    fun _ => rfl, fun _ => rfl⟩

theorem TwinMark.settled {d : Char} {k j : TokenKind} {r s : Rule} {parts : List Part}
    (h : TwinMark d k j r s parts) {c : Cursor} {cs : List Char} (hrest : c.rest = d :: cs) :
    Settled c := by
  rw [settled_iff, hrest, h.bare]

section

variable {c : Cursor} {left : List Char}

theorem accepts_form_of_tag {body : List Char} (hc : Settled c)
    (hrest : c.rest = '#' :: body ++ left)
    (hhead : ∃ d ∈ body.head?, isSymbolHead d = true)
    (hrun : run isSymbolChar (body ++ left) = some (body, left))
    (hafter : Accepts (.rule .form) (skipTrivia (c.advance ('#' :: body) left))) :
    Accepts (.rule .form) c := by
  refine accepts_form_of_parts (r := .taggedLiteral) rfl (by decide) hc ?_
    (acceptsInOrder_one_iff.2 hafter)
  rw [hrest]
  exact lexeme_tag_of_run hhead hrun

theorem TwinMark.accepts_form {d : Char} {k j : TokenKind} {r s : Rule} {parts : List Part}
    (h : TwinMark d k j r s parts) {cs : List Char} (hc : Settled c) (hrest : c.rest = '#' :: d :: cs)
    (hafter : Accepts (.rule .form) (skipTrivia (c.advance ['#'] (d :: cs)))) :
    Accepts (.rule .form) c := by
  have hsettled : Settled (c.advance ['#'] (d :: cs)) := h.settled rfl
  rw [hsettled] at hafter
  have hparts := acceptsInOrder_of_candidates h.production h.only hsettled (h.alone cs) (h.cut cs)
    hafter
  rw [Cursor.advance_advance] at hparts
  have hcut := h.hashCut cs
  rw [← hrest] at hcut
  exact accepts_form_of_parts h.hashProduction h.hashOpens hc hcut hparts

theorem accepts_or_twinMark_of_lone_hash (hc : Settled c) (hrest : c.rest = '#' :: left)
    (hstop : left.head?.any isSymbolChar = false) {k : TokenKind}
    (hsome : (k.lexeme c.rest).isSome) :
    Accepts (.rule .form) c ∨
      ∃ d cs k j r s parts, left = d :: cs ∧ TwinMark d k j r s parts := by
  cases left with
  | nil =>
    obtain ⟨found, hfound⟩ := Option.isSome_iff_exists.1 hsome
    have hmem := lexeme_mem_candidates hfound
    rw [hrest] at hmem
    cases hmem
  | cons d cs =>
    have hd : isSymbolChar d = false := hstop
    have hhead : ¬ isSymbolHead d = true := by
      intro h
      rw [isSymbolChar_of_head h] at hd
      cases hd
    have entries : ∀ entry ∈ hashTable, isSymbolChar entry.1 = false →
        entry ∈ [('"', [TokenKind.regex]), ('\x7b', [.hashBrace]), ('(', [.hashParen]),
          ('^', [.caret])] := by
      decide
    have hopens := hsome
    rw [hrest] at hopens
    obtain ⟨ks, hks, hk⟩ := mem_hashTable_of_isSome hopens hhead
    have hentry := entries (d, ks) hks hd
    simp only [List.mem_cons, Prod.mk.injEq, List.not_mem_nil, or_false] at hentry
    rcases hentry with ⟨rfl, rfl⟩ | ⟨rfl, rfl⟩ | ⟨rfl, rfl⟩ | ⟨rfl, rfl⟩
    · obtain rfl := List.mem_singleton.1 hk
      exact .inl (accepts_form_of_literal (by decide) hc hsome)
    · exact .inr ⟨_, cs, _, _, _, _, _, rfl, twinMark_brace⟩
    · exact .inr ⟨_, cs, _, _, _, _, _, rfl, twinMark_paren⟩
    · exact .inr ⟨_, cs, _, _, _, _, _, rfl, twinMark_caret⟩

theorem accepts_or_head_of_hash_run {d : Char} {ds : List Char} (hc : Settled c)
    (hrest : c.rest = '#' :: d :: ds ++ left)
    (hrun : run isSymbolChar (d :: ds ++ left) = some (d :: ds, left)) (hquote : d ≠ '\x27')
    (hcolon : d ≠ ':') {k : TokenKind} (hsome : (k.lexeme c.rest).isSome) :
    Accepts (.rule .form) c ∨ isSymbolHead d = true := by
  by_cases hhead : isSymbolHead d = true
  · exact .inr hhead
  have hchar : isSymbolChar d = true := (run_eq_some_iff.1 hrun).1 d (List.mem_cons_self ..)
  have entries : ∀ entry ∈ hashTable, isSymbolChar entry.1 = true → ¬ isSymbolHead entry.1 = true →
      entry.1 = '\x27' ∨ entry.1 = ':' ∨ entry.2 = [TokenKind.symbolicValue] := by
    decide
  have hopens := hsome
  rw [hrest] at hopens
  obtain ⟨ks, hks, hk⟩ := mem_hashTable_of_isSome hopens hhead
  rcases entries (d, ks) hks hchar hhead with h | h | h
  · exact absurd h hquote
  · exact absurd h hcolon
  · obtain rfl : ks = [.symbolicValue] := h
    obtain rfl := List.mem_singleton.1 hk
    exact .inl (accepts_form_of_literal (by decide) hc hsome)

theorem accepts_form_of_plain_run {d : Char} {ds : List Char} (hc : Settled c)
    (hrest : c.rest = d :: ds ++ left)
    (hrun : run isSymbolChar (d :: ds ++ left) = some (d :: ds, left)) (hhash : d ≠ '#')
    (hquote : d ≠ '\x27') {k : TokenKind} (hsome : (k.lexeme c.rest).isSome) :
    Accepts (.rule .form) c := by
  obtain ⟨found, hfound⟩ := Option.isSome_iff_exists.1 hsome
  have hmem := lexeme_mem_candidates hfound
  have hchar : isSymbolChar d = true := (run_eq_some_iff.1 hrun).1 d (List.mem_cons_self ..)
  have entries : ∀ entry ∈ plainTable, isSymbolChar entry.1 = true → entry.1 ≠ '\x27' →
      ∀ j ∈ entry.2, j ∈ literalKinds := by
    decide
  have others : ∀ j ∈ [TokenKind.number, .nil, .boolean, .symbol], j ∈ literalKinds := by decide
  rw [hrest, List.cons_append, candidates_of_ne_hash hhash] at hmem
  refine accepts_form_of_literal ?_ hc hsome
  unfold plainCandidates at hmem
  cases hlookup : plainTable.lookup d with
  | none =>
    rw [hlookup] at hmem
    exact others k hmem
  | some ks =>
    rw [hlookup] at hmem
    exact entries (d, ks) (mem_of_lookup hlookup) hchar hquote k hmem

theorem accepts_map {cs : List Char} (hc : Settled c) (hrest : c.rest = '\x7b' :: cs)
    (h : Accepts (.rule .form) c) : Accepts (.rule .map) c := by
  have hcut : TokenKind.leftBrace.lexeme c.rest = some (['\x7b'], cs) := by
    rw [hrest]
    rfl
  have hparts := acceptsInOrder_of_candidates (r := .map) rfl (by decide) hc (by rw [hrest]; rfl)
    hcut h
  exact (accepts_sequence_iff rfl hc).2 ⟨_, _, hcut, hparts⟩

theorem lexeme_mapPrefix {cs : List Char} (hrun : run isSymbolChar (cs ++ left) = some (cs, left)) :
    TokenKind.namespacedMapPrefix.lexeme ('#' :: ':' :: cs ++ left) =
      some ('#' :: ':' :: cs, left) := by
  rw [TokenKind.lexeme, inOrder_cons_eq_some_iff]
  refine ⟨['#', ':'], cs ++ left, cs, word_eq_some_iff.2 ⟨rfl, rfl⟩, ?_, rfl⟩
  rwa [inOrder_single]

theorem noMap_of_refused {cs : List Char} (hc : Settled c)
    (hrest : c.rest = '#' :: ':' :: cs ++ left)
    (hrun : run isSymbolChar (cs ++ left) = some (cs, left))
    (hafter : Accepts (.rule .form) (skipTrivia (c.advance ('#' :: ':' :: cs) left)))
    (hrefused : ¬ Accepts (.rule .form) c) : (splitTrivia false left).2.head? ≠ some '\x7b' := by
  intro hbrace
  obtain ⟨more, hmore⟩ := List.head?_eq_some_iff.1 hbrace
  have hplace : (skipTrivia (c.advance ('#' :: ':' :: cs) left)).rest = '\x7b' :: more := hmore
  have hmap := accepts_map (settled_skipTrivia _) hplace hafter
  have hcut := lexeme_mapPrefix hrun
  rw [← hrest] at hcut
  exact hrefused (accepts_form_of_parts (r := .namespacedMap) rfl (by decide) hc hcut
    (acceptsInOrder_one_iff.2 hmap))

end

namespace QuoteMark

variable {mark cs left : List Char} {k : TokenKind} {r : Rule} {c : Cursor}

theorem settled (h : QuoteMark mark k r) (hrest : c.rest = mark ++ cs) : Settled c := by
  rw [settled_iff, hrest, h.bare]

theorem cut_at (h : QuoteMark mark k r) (hrest : c.rest = mark ++ cs) :
    k.lexeme c.rest = some (mark, cs) := by
  rw [hrest, h.cut]

theorem accepts_form_iff (h : QuoteMark mark k r) (hrest : c.rest = mark ++ cs) :
    Accepts (.rule .form) (skipTrivia c) ↔
      Accepts (.rule .form) (skipTrivia (c.advance mark cs)) := by
  have hc := h.settled hrest
  rw [hc, ← acceptsInOrder_one_iff]
  constructor
  · exact acceptsInOrder_of_candidates h.production h.only hc (by rw [hrest, h.alone])
      (h.cut_at hrest)
  · exact accepts_form_of_parts h.production h.opens hc (h.cut_at hrest)

theorem lexable (h : QuoteMark mark k r) (hrest : c.rest = mark ++ cs) (hlex : Lexable c.rest) :
    Lexable cs := by
  have hcut := h.cut_at hrest
  have hne : c.rest ≠ [] := by
    intro hnil
    rw [hnil, k.lexeme_nil] at hcut
    cases hcut
  obtain ⟨j, taken, rest, hfirst, hlex'⟩ := hlex.exists_first (h.settled hrest) hne
  have halone : candidates c.rest = [k] := by rw [hrest, h.alone]
  obtain rfl := eq_of_candidates halone (by rw [hfirst]; rfl)
  rw [hcut] at hfirst
  obtain ⟨-, rfl⟩ := Prod.mk.inj (Option.some.inj hfirst)
  exact hlex'

end QuoteMark

/-- What stands where no form is accepted and a run of symbol characters begins with no quote mark. -/
inductive BareHash : List Char → List Char → Prop
  | twin {d : Char} {k j : TokenKind} {r s : Rule} {parts : List Part} (cs : List Char) :
    TwinMark d k j r s parts → BareHash ['#'] (d :: cs)
  | mapPrefix (es left : List Char) : BareHash ('#' :: ':' :: es) left
  | tag {e : Char} (es left : List Char) : isSymbolHead e = true → BareHash ('#' :: e :: es) left

theorem bareHash_of_refused {c : Cursor} {d : Char} {ds left : List Char} (hc : Settled c)
    (hrest : c.rest = d :: ds ++ left)
    (hrun : run isSymbolChar (d :: ds ++ left) = some (d :: ds, left))
    (hquote : ∀ cs, d :: ds ≠ '\x27' :: cs) (hvar : ∀ cs, d :: ds ≠ '#' :: '\x27' :: cs)
    (hlex : Lexable c.rest) (hrefused : ¬ Accepts (.rule .form) c) : BareHash (d :: ds) left := by
  obtain ⟨k, taken, rest, hcut, -⟩ := hlex.exists_first hc (by rw [hrest]; simp)
  have hsome : (k.lexeme c.rest).isSome := by rw [hcut]; rfl
  have hd : d ≠ '\x27' := fun h => hquote ds (by rw [h])
  by_cases hhash : d = '#'
  · subst hhash
    cases ds with
    | nil =>
      obtain ⟨-, hstop⟩ := run_eq_some_iff.1 hrun
      rcases accepts_or_twinMark_of_lone_hash hc hrest hstop hsome with
        hform | ⟨d, cs, k, j, r, s, parts, rfl, htwin⟩
      · exact absurd hform hrefused
      · exact .twin cs htwin
    | cons e es =>
      have he : e ≠ '\x27' := fun h => hvar es (by rw [h])
      by_cases hcolon : e = ':'
      · subst hcolon
        exact .mapPrefix es left
      · rcases accepts_or_head_of_hash_run hc hrest (run_tail hrun) he hcolon hsome with
          hform | hhead
        · exact absurd hform hrefused
        · exact .tag es left hhead
  · exact absurd (accepts_form_of_plain_run hc hrest hrun hhash hd hsome) hrefused

/-- Where no form stands behind a discard mark, although one stands behind the tag that begins with
the mark, the tag goes on with quote marks and the prefix of a namespaced map. -/
theorem marked_of_refused {c : Cursor} {body left : List Char} (hrest : c.rest = body ++ left)
    (hrun : run isSymbolChar (body ++ left) = some (body, left))
    (hhidden : ¬ opensHidden body = true) (hlex : Lexable c.rest)
    (hafter : Accepts (.rule .form) (skipTrivia (c.advance body left)))
    (hrefused : ¬ Accepts (.rule .form) (skipTrivia c)) :
    (∃ ks, Marked body ks) ∧ (splitTrivia false left).2.head? ≠ some '\x7b' := by
  fun_induction opensHidden body generalizing c with
  | case1 => exact absurd rfl hhidden
  | case2 cs ih =>
    have hmark : c.rest = ['\x27'] ++ (cs ++ left) := hrest
    rw [quoteMark_quote.accepts_form_iff hmark] at hrefused
    obtain ⟨⟨ks, hks⟩, hnoMap⟩ := ih (c := c.advance ['\x27'] (cs ++ left)) rfl (run_tail hrun)
      hhidden (quoteMark_quote.lexable hmark hlex) (by rwa [Cursor.advance_advance]) hrefused
    exact ⟨⟨_, .quoted quoteMark_quote hks⟩, hnoMap⟩
  | case3 cs ih =>
    have hmark : c.rest = ['#', '\x27'] ++ (cs ++ left) := hrest
    rw [quoteMark_varQuote.accepts_form_iff hmark] at hrefused
    obtain ⟨⟨ks, hks⟩, hnoMap⟩ := ih (c := c.advance ['#', '\x27'] (cs ++ left)) rfl
      (run_tail (run_tail hrun)) hhidden (quoteMark_varQuote.lexable hmark hlex)
      (by rwa [Cursor.advance_advance]) hrefused
    exact ⟨⟨_, .quoted quoteMark_varQuote hks⟩, hnoMap⟩
  | case4 body hbang hquote hvar =>
    cases body with
    | nil =>
      have hsame : c.advance [] left = c := advance_nil c hrest
      rw [hsame] at hafter
      exact absurd hafter hrefused
    | cons d ds =>
      have hc := settled_of_run hrest hrun hbang
      rw [hc] at hrefused
      cases bareHash_of_refused hc hrest hrun hquote hvar hlex hrefused with
      | twin cs htwin => exact absurd (htwin.accepts_form hc hrest hafter) hrefused
      | mapPrefix es =>
        exact ⟨⟨_, .mapPrefix es⟩,
          noMap_of_refused hc hrest (run_tail (run_tail hrun)) hafter hrefused⟩
      | tag es _ hhead =>
        exact absurd (accepts_form_of_tag hc hrest ⟨_, rfl, hhead⟩ (run_tail hrun) hafter) hrefused

theorem skipTrivia_advance {c : Cursor} {w cs : List Char} (hrest : c.rest = w ++ cs)
    (h : (splitTrivia false (w ++ cs)).2 = (splitTrivia false cs).2) :
    skipTrivia (c.advance w cs) = skipTrivia c := by
  have hwhole := splitTrivia_append false (w ++ cs)
  have htail := splitTrivia_append false cs
  rw [← h] at htail
  have hgap : (splitTrivia false (w ++ cs)).1 = w ++ (splitTrivia false cs).1 := by
    refine List.append_cancel_right (hwhole.trans ?_)
    rw [List.append_assoc, htail]
  rw [skipTrivia, skipTrivia, hrest, Cursor.advance_rest, Cursor.advance_advance, ← h, hgap]

theorem accepts_form_of_hidden {c : Cursor} {body left : List Char} {e : Char}
    (hend : isLineEnd e = true) (hrest : c.rest = body ++ e :: left)
    (hrun : run isSymbolChar (body ++ e :: left) = some (body, e :: left))
    (hhidden : opensHidden body = true)
    (hafter : Accepts (.rule .form) (skipTrivia (c.advance body (e :: left)))) :
    Accepts (.rule .form) (skipTrivia c) := by
  fun_induction opensHidden body generalizing c with
  | case1 cs =>
    obtain ⟨hchars, -⟩ := run_eq_some_iff.1 hrun
    have hbody : ∀ d ∈ cs, isLineEnd d = false := by
      intro d hd
      have hblank := (not_separator_of_symbolChar (hchars d (by simp [hd]))).1
      simp only [isBlank, Bool.or_eq_false_iff] at hblank
      exact hblank.1.1.1
    have hcomment : Trivia False (['#', '!'] ++ cs ++ [e]) :=
      .comment (by decide) hbody hend .none
    have hblank : Trivia False [e] := .blank (by simp [isBlank, hend]) .none
    have hskip := hcomment.splitTrivia_append left
    rw [← hblank.splitTrivia_append left, List.append_assoc] at hskip
    rwa [skipTrivia_advance hrest hskip] at hafter
  | case2 cs ih =>
    have hmark : c.rest = ['\x27'] ++ (cs ++ e :: left) := hrest
    rw [quoteMark_quote.accepts_form_iff hmark]
    exact ih rfl (run_tail hrun) hhidden (by rwa [Cursor.advance_advance])
  | case3 cs ih =>
    have hmark : c.rest = ['#', '\x27'] ++ (cs ++ e :: left) := hrest
    rw [quoteMark_varQuote.accepts_form_iff hmark]
    exact ih rfl (run_tail (run_tail hrun)) hhidden (by rwa [Cursor.advance_advance])
  | case4 => cases hhidden

namespace Marked

variable {body left : List Char} {ks : List TokenKind} {c : Cursor}

theorem refuses (h : Marked body ks) (hrest : c.rest = body ++ left)
    (hrun : run isSymbolChar (body ++ left) = some (body, left))
    (hnoMap : (splitTrivia false left).2.head? ≠ some '\x7b') :
    ¬ Accepts (.rule .form) (skipTrivia c) := by
  induction h generalizing c with
  | mapPrefix cs =>
    have hc : Settled c := .of_rest_cons hrest (by decide) rfl
    rw [hc]
    intro hform
    have hcut := lexeme_mapPrefix (run_tail (run_tail hrun))
    rw [← hrest] at hcut
    have hparts := acceptsInOrder_of_candidates (r := .namespacedMap) rfl (by decide) hc
      (by rw [hrest]; rfl) hcut hform
    obtain ⟨taken, rest, hbrace, -⟩ :=
      (accepts_sequence_iff rfl (settled_skipTrivia _)).1 (acceptsInOrder_one_iff.1 hparts)
    obtain ⟨-, hplace⟩ := word_eq_some_iff.1 hbrace
    have hleft : (splitTrivia false left).2 = '\x7b' :: rest := hplace
    exact hnoMap (by rw [hleft]; rfl)
  | quoted hmark _ ih =>
    rw [List.append_assoc] at hrest
    rw [hmark.accepts_form_iff hrest]
    exact ih rfl (run_of_append hrun)

theorem spells (h : Marked body ks) (hrest : c.rest = body ++ left)
    (hrun : run isSymbolChar (body ++ left) = some (body, left)) :
    ∃ ts, Spells TokenKind.Preferred c ts (c.advance body left) ∧
      ts.map Token.rule = ks.map TokenKind.index := by
  induction h generalizing c with
  | mapPrefix cs =>
    have hc : Settled c := .of_rest_cons hrest (by decide) rfl
    have hcut := lexeme_mapPrefix (run_tail (run_tail hrun))
    rw [← hrest] at hcut
    have unrivalled : ∀ p : TokenKind, .namespacedMapPrefix ∉ p.rivals := by
      intro p
      cases p <;> decide
    have hp : TokenKind.namespacedMapPrefix.Preferred c.rest :=
      .of_unrivalled unrivalled (by rw [hcut]; rfl)
    exact ⟨_, .cons hc hcut hp (.done _), rfl⟩
  | @quoted mark cs k r ks hmark _ ih =>
    rw [List.append_assoc] at hrest
    have hcut := hmark.cut_at hrest
    have hp : k.Preferred c.rest := .of_unrivalled hmark.unrivalled (by rw [hcut]; rfl)
    obtain ⟨ts, hspells, hkinds⟩ := ih (c := c.advance mark (cs ++ left)) rfl (run_of_append hrun)
    rw [Cursor.advance_advance] at hspells
    exact ⟨_, hspells.cons (hmark.settled hrest) hcut hp, congrArg _ hkinds⟩

end Marked

theorem discard_preferred (cs : List Char) : TokenKind.discard.Preferred ('#' :: '_' :: cs) := by
  refine .of_unrivalled ?_ rfl
  intro p
  cases p <;> decide

namespace Reread

variable {body left : List Char} {ks : List TokenKind} {c : Cursor}

theorem cut (h : Reread body left ks) : TokenKind.tag.lexeme ('#' :: '_' :: body ++ left) =
    some ('#' :: '_' :: body, left) :=
  lexeme_tag_of_run ⟨'_', rfl, by decide⟩ (run_cons (by decide) h.run)

theorem eq_of_lexeme (h : Reread body left ks) {cs taken rest : List Char}
    (htext : cs = '#' :: '_' :: body ++ left)
    (hcut : TokenKind.tag.lexeme cs = some (taken, rest)) :
    taken = '#' :: '_' :: body ∧ rest = left := by
  rw [htext, h.cut] at hcut
  exact Prod.mk.inj (Option.some.inj hcut.symm)

theorem refuses (h : Reread body left ks) (hrest : c.rest = '#' :: '_' :: body ++ left) :
    ¬ Accepts (.rule .discard) c := by
  intro hdiscard
  have hc : Settled c := .of_rest_cons hrest (by decide) rfl
  obtain ⟨taken, rest, hcut, hparts⟩ := (accepts_sequence_iff rfl hc).1 hdiscard
  obtain ⟨rfl, hleft⟩ := word_eq_some_iff.1 hcut
  rw [hrest] at hleft
  obtain rfl : body ++ left = rest := (List.cons.inj (List.cons.inj hleft).2).2
  exact h.marked.refuses rfl h.run h.noMap (acceptsInOrder_one_iff.1 hparts)

theorem spells (h : Reread body left ks)
    (hrest : (skipTrivia c).rest = '#' :: '_' :: body ++ left) :
    ∃ ts, Spells TokenKind.Preferred c ts ((skipTrivia c).advance ('#' :: '_' :: body) left) ∧
      ts.map Token.rule = (.discard :: ks).map TokenKind.index := by
  have hcut : TokenKind.discard.lexeme (skipTrivia c).rest = some (['#', '_'], body ++ left) := by
    rw [hrest]
    rfl
  have hp : TokenKind.discard.Preferred (skipTrivia c).rest := by
    rw [hrest]
    exact discard_preferred _
  obtain ⟨ts, hspells, hkinds⟩ :=
    h.marked.spells (c := (skipTrivia c).advance ['#', '_'] (body ++ left)) rfl h.run
  rw [Cursor.advance_advance] at hspells
  exact ⟨_, .token hcut hp hspells, congrArg _ hkinds⟩

theorem of_parted (h : Reread body left ks) {left' : List Char} (hparted : Parted left left')
    (hnoMap : (splitTrivia false left').2.head? ≠ some '\x7b') : Reread body left' ks where
  marked := h.marked
  run := by
    have symbols : Spares isSymbolChar := by decide
    exact run_stable symbols body left left' h.run hparted
  noMap := hnoMap

end Reread

/-- A tagged literal is matched at the text, and the discard that it also begins with is not. -/
def TagsDiscard (cs : List Char) : Prop :=
  ∃ c, c.rest = cs ∧ Settled c ∧ Accepts (.rule .taggedLiteral) c ∧ ¬ Accepts (.rule .discard) c

theorem TagsDiscard.exists_place {body left : List Char}
    (h : TagsDiscard ('#' :: '_' :: body ++ left))
    (hcut : TokenKind.tag.lexeme ('#' :: '_' :: body ++ left) = some ('#' :: '_' :: body, left)) :
    ∃ c, c.rest = body ++ left ∧ Accepts (.rule .form) (skipTrivia (c.advance body left)) ∧
      ¬ Accepts (.rule .form) (skipTrivia c) := by
  obtain ⟨c, hrest, hc, htagged, hrefused⟩ := h
  obtain ⟨taken, rest, htag, hparts⟩ := (accepts_sequence_iff rfl hc).1 htagged
  rw [hrest, hcut] at htag
  obtain ⟨rfl, rfl⟩ := Prod.mk.inj (Option.some.inj htag)
  have hdiscard : TokenKind.discard.lexeme c.rest = some (['#', '_'], body ++ left) := by
    rw [hrest]
    rfl
  refine ⟨c.advance ['#', '_'] (body ++ left), rfl, ?_, fun hform => hrefused ?_⟩
  · rw [Cursor.advance_advance]
    exact acceptsInOrder_one_iff.1 hparts
  · exact (accepts_sequence_iff rfl hc).2 ⟨_, _, hdiscard, acceptsInOrder_one_iff.2 hform⟩

theorem run_of_lexeme_tag {body left : List Char}
    (hcut : TokenKind.tag.lexeme ('#' :: body ++ left) = some ('#' :: body, left)) :
    run isSymbolChar (body ++ left) = some (body, left) := by
  rw [TokenKind.lexeme] at hcut
  obtain ⟨first, mid, more, hmark, hrest, htaken⟩ := inOrder_cons_eq_some_iff.1 hcut
  obtain ⟨rfl, hmid⟩ := word_eq_some_iff.1 hmark
  obtain rfl : body ++ left = mid := (List.cons.inj hmid).2
  obtain rfl : body = more := (List.cons.inj htaken).2
  rw [inOrder_single] at hrest
  exact (symbolText_eq_some_iff.1 hrest).2

theorem TagsDiscard.exists_reread {body left : List Char}
    (h : TagsDiscard ('#' :: '_' :: body ++ left))
    (hcut : TokenKind.tag.lexeme ('#' :: '_' :: body ++ left) = some ('#' :: '_' :: body, left))
    (hhidden : ¬ opensHidden body = true) (hlex : Lexable (body ++ left)) :
    ∃ ks, Reread body left ks := by
  have hrun := run_tail (run_of_lexeme_tag hcut)
  obtain ⟨c, hrest, hafter, hrefused⟩ := h.exists_place hcut
  rw [← hrest] at hlex
  obtain ⟨⟨ks, hks⟩, hnoMap⟩ := marked_of_refused hrest hrun hhidden hlex hafter hrefused
  exact ⟨ks, hks, hrun, hnoMap⟩

theorem not_tagsDiscard_of_hidden {body left : List Char} (hhidden : opensHidden body = true)
    (hcut : TokenKind.tag.lexeme ('#' :: '_' :: body ++ left) = some ('#' :: '_' :: body, left))
    (hleft : ∀ e ∈ left.head?, isLineEnd e = true) :
    ¬ TagsDiscard ('#' :: '_' :: body ++ left) := by
  intro h
  have hrun := run_tail (run_of_lexeme_tag hcut)
  obtain ⟨c, hrest, hafter, hrefused⟩ := h.exists_place hcut
  cases left with
  | nil =>
    obtain ⟨t, c', hread⟩ := accepts_iff.1 hafter
    have hstops : Stops (c.advance body []) := .of_end rfl
    rw [Stops] at hstops
    rw [readingOf, matchSymbol, hstops] at hread
    cases hread
  | cons e left =>
    exact hrefused (accepts_form_of_hidden (hleft e rfl) hrest hrun hhidden hafter)

end HiccupReader.Clojure
