import HiccupReader.Proofs.Clojure.Parse
import HiccupReader.Proofs.Clojure.Spelling

/-! Tokens cover their source. They stand in it in order, each is the text of its span, and what
lies between them is trivia, both when the source is only cut into tokens and when it is parsed. -/

namespace HiccupReader.Clojure

open Matching Text

/-- The text, which begins at some offset of the source, is made of the tokens with a piece of
trivia before each and one behind the last. -/
inductive Interleaved : (offset : Nat) → List Char → List Token → Prop
  | last {offset : Nat} {gap : List Char} : Trivia True gap → Interleaved offset gap []
  | token {offset rule : Nat} {gap piece rest : List Char} {ts : List Token} :
    Trivia False gap → piece ≠ [] →
      Interleaved (offset + byteLength gap + byteLength piece) rest ts →
      Interleaved offset (gap ++ piece ++ rest)
        (⟨rule, String.ofList piece, offset + byteLength gap,
          offset + byteLength gap + byteLength piece⟩ :: ts)

def Selects (text : List Char) (span : Span) (piece : List Char) : Prop :=
  ∃ before after, text = before ++ piece ++ after ∧ span.start = byteLength before ∧
    span.stop = byteLength before + byteLength piece

theorem eq_of_byteLength {xs ys zs ws : List Char} (h : xs ++ ys = zs ++ ws)
    (hlength : byteLength xs = byteLength zs) : xs = zs ∧ ys = ws := by
  have hrest : ys = ws := by
    rw [← dropBytes_byteLength_append xs ys, h, hlength, dropBytes_byteLength_append]
  subst hrest
  exact ⟨List.append_cancel_right h, rfl⟩

theorem Selects.unique {text piece piece' : List Char} {span : Span} (h : Selects text span piece)
    (h' : Selects text span piece') : piece = piece' := by
  obtain ⟨before, after, htext, hstart, hstop⟩ := h
  obtain ⟨before', after', rfl, hstart', hstop'⟩ := h'
  rw [List.append_assoc, List.append_assoc] at htext
  obtain ⟨rfl, hrest⟩ := eq_of_byteLength htext (hstart'.symm.trans hstart)
  exact (eq_of_byteLength hrest (by omega)).1.symm

structure Covers (text : String) (tokens : List Token) : Prop where
  interleaved : Interleaved 0 text.toList tokens
  nonempty : ∀ token ∈ tokens, token.span.start < token.span.stop
  selected : ∀ token ∈ tokens, Selects text.toList token.span token.text.toList
  ordered : tokens.Pairwise fun a b => a.span.stop ≤ b.span.start

theorem Trivia.mono {last last' : Prop} (himp : last → last') {cs : List Char}
    (h : Trivia last cs) : Trivia last' cs := by
  induction h with
  | none => exact .none
  | blank hc _ ih => exact .blank hc ih
  | comment hm hbody hend _ ih => exact .comment hm hbody hend ih
  | lastComment hlast hm hbody => exact .lastComment (himp hlast) hm hbody

theorem interleaved_of_spells {P : TokenKind → List Char → Prop} {c c' : Cursor}
    {ts : List Token} (h : Spells P c ts c') (hend : (skipTrivia c').rest = []) :
    Interleaved c.offset c.rest ts := by
  induction h with
  | done c =>
    have hgap : Trivia True (splitTrivia false c.rest).1 :=
      (trivia_splitTrivia c.rest).mono fun _ => trivial
    have hrest : (splitTrivia false c.rest).2 = [] := hend
    have happend := splitTrivia_append false c.rest
    rw [hrest, List.append_nil] at happend
    rw [happend] at hgap
    exact .last hgap
  | @token k c c' taken left ts hcut _ _ ih =>
    have hrest : taken ++ left = (splitTrivia false c.rest).2 := k.lexeme_cuts _ _ _ hcut
    have htaken : taken ≠ [] := k.lexeme_takes _ _ _ hcut
    -- A token follows, so that no comment is still open in front of it.
    have hgap : Trivia False (splitTrivia false c.rest).1 := by
      refine (trivia_splitTrivia c.rest).mono fun hnil => ?_
      rw [← hrest] at hnil
      exact htaken (List.append_eq_nil_iff.1 hnil).1
    have htext : c.rest = (splitTrivia false c.rest).1 ++ taken ++ left := by
      rw [List.append_assoc, hrest, splitTrivia_append]
    rw [htext]
    exact .token hgap htaken (ih hend)

namespace Interleaved

variable {offset : Nat} {text : List Char} {ts : List Token}

theorem exists_piece (h : Interleaved offset text ts) :
    ∀ token ∈ ts, ∃ before piece after, text = before ++ piece ++ after ∧ piece ≠ [] ∧
      token.text.toList = piece ∧ token.span.start = offset + byteLength before ∧
      token.span.stop = offset + byteLength before + byteLength piece := by
  induction h with
  | last => simp
  | @token offset rule gap piece rest ts _ hpiece _ ih =>
    rw [List.forall_mem_cons]
    refine ⟨⟨gap, piece, rest, rfl, hpiece, String.toList_ofList, rfl, rfl⟩, ?_⟩
    intro token hmem
    obtain ⟨before, inner, after, rfl, hinner, htext, hstart, hstop⟩ := ih token hmem
    refine ⟨gap ++ piece ++ before, inner, after, by simp, hinner, htext, ?_, ?_⟩
    · rw [hstart, byteLength_append, byteLength_append]
      omega
    · rw [hstop, byteLength_append, byteLength_append]
      omega

theorem pairwise (h : Interleaved offset text ts) :
    ts.Pairwise fun a b => a.span.stop ≤ b.span.start := by
  induction h with
  | last => exact .nil
  | token _ _ hrest ih =>
    refine .cons ?_ ih
    intro token hmem
    obtain ⟨before, _, _, _, _, _, hstart, _⟩ := hrest.exists_piece token hmem
    rw [hstart]
    exact Nat.le_add_right _ _

end Interleaved

theorem covers_of_interleaved {text : String} {tokens : List Token}
    (h : Interleaved 0 text.toList tokens) : Covers text tokens where
  interleaved := h
  nonempty token hmem := by
    obtain ⟨before, piece, after, _, hpiece, _, hstart, hstop⟩ := h.exists_piece token hmem
    have hpos : 0 < byteLength piece :=
      Nat.lt_of_lt_of_le (List.length_pos_iff.2 hpiece) (length_le_byteLength piece)
    omega
  selected token hmem := by
    obtain ⟨before, piece, after, htext, _, rfl, hstart, hstop⟩ := h.exists_piece token hmem
    exact ⟨before, after, htext, by omega, by omega⟩
  ordered := h.pairwise

theorem Sequenced.rest_eq_nil {R : Reading} {parts : List Part} {c c' : Cursor} {ts : List Tree}
    (h : Sequenced R (parts ++ [.finish]) c ts c') : c'.rest = [] := by
  induction parts generalizing c ts with
  | nil =>
    cases h with
    | finish hend hdone =>
      cases hdone
      exact hend
  | cons part parts ih =>
    cases h with
    | one _ hrest => exact ih hrest
    | many _ hrest => exact ih hrest
    | finish _ hrest => exact ih hrest

theorem Sequenced.spells_to_end {P : TokenKind → List Char → Prop} {R : Reading}
    {parts : List Part} {c c' : Cursor} {ts : List Tree}
    (step : ∀ {s c t c'}, R s c t c' → Settled c → SpellsUpTo P c t.leaves c')
    (h : Sequenced R (parts ++ [.finish]) c ts c') :
    ∃ stop, Spells P c (Rose.leavesAll ts) stop ∧ (skipTrivia stop).rest = [] := by
  rcases h.spells step with ⟨stop, hspells, rfl | rfl⟩
  · refine ⟨c', hspells, ?_⟩
    rw [Settled.of_rest_nil h.rest_eq_nil, h.rest_eq_nil]
  · exact ⟨stop, hspells, h.rest_eq_nil⟩

theorem covers_of_reading {r : Rule} {parts : List Part} {text : String} {c : Cursor} {t : Tree}
    (hr : r.production = .sequence (parts ++ [.finish]))
    (h : readingOf matchAt (.rule r) (.start text.toList) t c) : Covers text t.leaves := by
  obtain ⟨ts, hparts, rfl⟩ := produced_of_reading h
  rw [hr] at hparts
  cases hparts with
  | sequence hparts =>
    obtain ⟨stop, hspells, hend⟩ := hparts.spells_to_end fun hread hc =>
      (spelled_of_reading hread hc).upTo
    exact covers_of_interleaved (interleaved_of_spells hspells hend)

theorem tokens_cover_source (text : String) :
    (∀ tokens, lex text = .ok tokens → Covers text tokens) ∧
      ∀ tree, parse text = .ok tree → Covers text tree.tokens := by
  constructor
  · intro tokens h
    obtain ⟨tree, c, hread, rfl⟩ := lex_eq_ok_iff.1 h
    have hentry : Rule.tokens.production =
        .sequence ([.many (TokenKind.precedence.map .token)] ++ [.finish]) := rfl
    exact covers_of_reading hentry hread
  · intro tree h
    obtain ⟨tokens, -, -, hderive⟩ := parse_eq_ok_iff.1 h
    obtain ⟨c, hread⟩ := derive_eq_ok_iff.1 hderive
    rw [Tree.tokens_eq_leaves]
    have hentry : Rule.code.production = .sequence ([.one (.rule .forms)] ++ [.finish]) := rfl
    exact covers_of_reading hentry hread

theorem covers_quoted_symbol :
    ∃ tokens tree, lex "'a ;b" = .ok tokens ∧ parse "'a ;b" = .ok tree ∧
      Covers "'a ;b" tokens ∧ Covers "'a ;b" tree.tokens := by
  have hlex : lex "'a ;b" =
      .ok [⟨TokenKind.quote.index, "'", 0, 1⟩, ⟨TokenKind.symbol.index, "a", 1, 2⟩] :=
    eq_ok_of_toOption (by decide +kernel)
  obtain ⟨tree, hparse⟩ : ∃ tree, parse "'a ;b" = .ok tree := exists_eq_ok (by decide +kernel)
  obtain ⟨htokens, htrees⟩ := tokens_cover_source "'a ;b"
  exact ⟨_, tree, hlex, hparse, htokens _ hlex, htrees tree hparse⟩

end HiccupReader.Clojure
