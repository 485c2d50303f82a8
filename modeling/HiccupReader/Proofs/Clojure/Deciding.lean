import HiccupReader.Proofs.Clojure.Respacing

/-! What the text ahead decides. Where the parser reads a token at all, the text alone says which
one: that of the lexer, or a tag where a discard mark is read again. This holds as long as no
comment hides behind a discard mark. -/

namespace HiccupReader.Clojure

open Matching

def Rereads (cs : List Char) : Prop :=
  ∃ body left ks, cs = '#' :: '_' :: body ++ left ∧ Reread body left ks

/-- The kind of the token that the parser reads at the front of a text. -/
def Decided (k : TokenKind) (cs : List Char) : Prop :=
  Rereads cs ∧ k = .tag ∨ ¬ Rereads cs ∧ k.Preferred cs

def Plain (k : TokenKind) (cs : List Char) : Prop :=
  k.Preferred cs ∧ (k = .discard → ¬ opensHidden (cs.drop 2) = true)

/-- The lexer cuts what is left, and finds no discard mark with a comment behind. -/
def Readable (c : Cursor) : Prop :=
  ∃ ts stop, Spells Plain c ts stop ∧ (skipTrivia stop).rest = []

theorem Rereads.discard_preferred {cs : List Char} (h : Rereads cs) :
    TokenKind.discard.Preferred cs := by
  obtain ⟨body, left, ks, rfl, -⟩ := h
  exact Clojure.discard_preferred _

namespace Decided

variable {k j : TokenKind} {cs : List Char}

theorem settles (h : Decided k cs) : Settles k cs := by
  rcases h with ⟨hrereads, rfl⟩ | ⟨-, hpreferred⟩
  · exact .inr ⟨rfl, hrereads⟩
  · exact .inl hpreferred

theorem accepts (h : Decided k cs) : (k.lexeme cs).isSome := by
  rcases h with ⟨⟨body, left, ks, rfl, hreread⟩, rfl⟩ | ⟨-, hpreferred⟩
  · rw [hreread.cut]
    rfl
  · exact hpreferred.accepts

theorem unique (h : Decided k cs) (h' : Decided j cs) : j = k := by
  rcases h with ⟨hrereads, rfl⟩ | ⟨hnot, hpreferred⟩ <;>
    rcases h' with ⟨hrereads', rfl⟩ | ⟨hnot', hpreferred'⟩
  · rfl
  · exact absurd hrereads hnot'
  · exact absurd hrereads' hnot
  · exact hpreferred.unique hpreferred'

end Decided

theorem opensHidden_append {body : List Char} (h : opensHidden body = true) (left : List Char) :
    opensHidden (body ++ left) = true := by
  fun_induction opensHidden body with
  | case1 => rfl
  | case2 cs ih | case3 cs ih => exact ih h
  | case4 => cases h

namespace Readable

variable {c : Cursor} {k : TokenKind} {taken left : List Char}

theorem lexable (h : Readable c) : Lexable c.rest := by
  obtain ⟨ts, stop, hspells, hend⟩ := h
  exact ⟨c, ts, stop, rfl, hspells.imp And.left, hend⟩

theorem skip (h : Readable c) : Readable (skipTrivia c) := by
  obtain ⟨ts, stop, hspells, hend⟩ := h
  obtain ⟨mid, hmid, hend'⟩ := hspells.exists_of_skipTrivia hend
  exact ⟨ts, mid, hmid, hend'⟩

theorem exists_first (h : Readable c) (hc : Settled c) (hne : c.rest ≠ []) :
    ∃ k taken left, k.lexeme c.rest = some (taken, left) ∧ Plain k c.rest ∧
      Readable (c.advance taken left) := by
  obtain ⟨ts, stop, hspells, hend⟩ := h
  cases hspells with
  | done =>
    rw [hc] at hend
    exact absurd hend hne
  | @token k _ _ taken left ts hcut hk hrest =>
    rw [hc] at hcut hk hrest
    exact ⟨k, taken, left, hcut, hk, ts, stop, hrest, hend⟩

theorem not_opensHidden (h : Readable c) (hc : Settled c) {cs : List Char}
    (hrest : c.rest = '#' :: '_' :: cs) : ¬ opensHidden cs = true := by
  obtain ⟨k, taken, left, hcut, ⟨hk, hplain⟩, -⟩ := h.exists_first hc (by rw [hrest]; simp)
  rw [hrest] at hk hplain
  exact hplain (((discard_preferred cs).unique hk))

theorem advance (h : Readable c) (hc : Settled c) (hk : Decided k c.rest)
    (hcut : k.lexeme c.rest = some (taken, left)) : Readable (c.advance taken left) := by
  obtain ⟨ts, stop, hspells, hend⟩ := h
  rw [← hc] at hk hcut ⊢
  obtain ⟨us, hus⟩ := hk.settles.exists_spells hcut
  rw [hc] at hus ⊢
  obtain ⟨vs, -, hvs⟩ := hus.exists_rest And.left hspells hend
  exact ⟨vs, stop, hvs, hend⟩

theorem exists_decided (h : Readable c) (hc : Settled c) (hne : c.rest ≠ []) :
    ∃ k taken left, Decided k c.rest ∧ k.lexeme c.rest = some (taken, left) := by
  have hdecided : ∃ k, Decided k c.rest := by
    by_cases hrereads : Rereads c.rest
    · exact ⟨.tag, .inl ⟨hrereads, rfl⟩⟩
    · obtain ⟨k, taken, left, hcut, ⟨hk, -⟩, -⟩ := h.exists_first hc hne
      exact ⟨k, .inr ⟨hrereads, hk⟩⟩
  obtain ⟨k, hk⟩ := hdecided
  obtain ⟨⟨taken, left⟩, hcut⟩ := Option.isSome_iff_exists.1 hk.accepts
  exact ⟨k, taken, left, hk, hcut⟩

end Readable
end HiccupReader.Clojure
