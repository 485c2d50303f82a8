import HiccupReader.Proofs.Clojure.Courses
import HiccupReader.Proofs.Clojure.Pending

/-! Going through a text token by token, with what is pending. Where the parser fails it has gone
through the text in this way up to a token that does not fit, or up to the end. -/

namespace HiccupReader.Clojure

open Matching

/-- The tokens between two places are read where the criterion allows it, and they lead from what is
pending first to what is pending last. No trivia is left behind any of them. -/
inductive Follows (P : TokenKind → List Char → Prop) :
    List Pending → Cursor → List Pending → Cursor → Prop
  | done (st : List Pending) (c : Cursor) : Follows P st c st c
  | token {k : TokenKind} {st st₁ st₂ : List Pending} {c c' : Cursor} {taken left : List Char} :
    k.lexeme c.rest = some (taken, left) → P k c.rest → Pending.follow st k = some st₁ →
      Follows P st₁ (skipTrivia (c.advance taken left)) st₂ c' → Follows P st c st₂ c'

def Blocked (st : List Pending) (c : Cursor) : Prop :=
  c.rest = [] ∨ ∃ k, Decided k c.rest ∧ Pending.follow st k = none

def Stuck (st : List Pending) (c : Cursor) (offset : Nat) : Prop :=
  ∃ st' c', Follows Decided st c st' c' ∧ c'.offset = offset ∧ Blocked st' c'

variable {P : TokenKind → List Char → Prop} {st st₁ st₂ : List Pending} {c c₁ c₂ : Cursor}

namespace Follows

theorem trans (h : Follows P st c st₁ c₁) (h' : Follows P st₁ c₁ st₂ c₂) :
    Follows P st c st₂ c₂ := by
  induction h with
  | done => exact h'
  | token hcut hp hfollow _ ih => exact .token hcut hp hfollow (ih h')

theorem single {k : TokenKind} {taken left : List Char}
    (hcut : k.lexeme c.rest = some (taken, left)) (hp : P k c.rest)
    (hfollow : Pending.follow st k = some st₁) :
    Follows P st c st₁ (skipTrivia (c.advance taken left)) :=
  .token hcut hp hfollow (.done _ _)

theorem reaches (h : Follows P st c st₁ c₁) : c.Reaches c₁ := by
  induction h with
  | done => exact .refl _
  | token hcut _ _ _ ih =>
    exact ((reaches_of_lexeme hcut).trans (reaches_skipTrivia _)).trans ih

theorem readable (h : Follows Decided st c st₁ c₁) (hc : Settled c) (hread : Readable c) :
    Readable c₁ := by
  induction h with
  | done => exact hread
  | token hcut hk _ _ ih => exact ih (settled_skipTrivia _) (hread.advance hc hk hcut).skip

end Follows

namespace Stuck

variable {offset : Nat}

theorem here (h : Blocked st c) : Stuck st c c.offset := ⟨st, c, .done st c, rfl, h⟩

theorem of_follows (h : Follows Decided st c st₁ c₁) (h' : Stuck st₁ c₁ offset) :
    Stuck st c offset := by
  obtain ⟨st', c', hfollows, hoffset, hblocked⟩ := h'
  exact ⟨st', c', h.trans hfollows, hoffset, hblocked⟩

theorem offset_le (h : Stuck st c offset) : c.offset ≤ offset := by
  obtain ⟨st', c', hfollows, rfl, -⟩ := h
  exact hfollows.reaches.offset_le

end Stuck

/-- What an attempt reads is gone through token by token. Where it fails the tokens are stuck at its
frontier. -/
structure Traces {α : Type} (a : Attempt Goal α) (st st' : List Pending) (c : Cursor) : Prop where
  reads : ∀ {value c'}, a.result = some (value, c') →
    a.frontier.offset ≤ (skipTrivia c').offset ∧ Follows Decided st c st' (skipTrivia c')
  stuck : a.result = none → Stuck st c a.frontier.offset

namespace Traces

variable {α β : Type} {a : Attempt Goal α}

theorem of_some {value : α} {e : Cursor} (hsome : a.result = some (value, e))
    (hle : a.frontier.offset ≤ (skipTrivia e).offset)
    (hfollows : Follows Decided st c st₁ (skipTrivia e)) : Traces a st st₁ c where
  reads := by
    intro value' c' hsome'
    rw [hsome] at hsome'
    obtain ⟨rfl, rfl⟩ := Prod.mk.inj (Option.some.inj hsome')
    exact ⟨hle, hfollows⟩
  stuck hnone := by
    rw [hsome] at hnone
    cases hnone

theorem of_none (hnone : a.result = none) (hstuck : Stuck st c a.frontier.offset) :
    Traces a st st₁ c where
  reads := by
    intro value c' hsome
    rw [hnone] at hsome
    cases hsome
  stuck _ := hstuck

theorem success {value : α} (hc : skipTrivia c = c₁) :
    Traces (.success value c : Attempt Goal α) st st c₁ := by
  subst hc
  exact .of_some rfl (Nat.zero_le _) (.done _ _)

theorem failure {goal : Goal} (h : Blocked st c) :
    Traces (.failure goal c.offset : Attempt Goal α) st st₁ c :=
  .of_none rfl (.here h)

theorem andThen {next : α → Matcher Goal β} (h : Traces a st st₁ c)
    (hnext : ∀ {value c'}, a.result = some (value, c') →
      Follows Decided st c st₁ (skipTrivia c') → Traces (next value c') st₁ st₂ (skipTrivia c')) :
    Traces (a.andThen next) st st₂ c := by
  cases hresult : a.result with
  | none =>
    have hnone : (a.andThen next).result = none := by
      rw [Attempt.result_andThen, hresult]
      rfl
    refine .of_none hnone ?_
    rw [Attempt.offset_andThen_of_none hresult]
    exact h.stuck hresult
  | some found =>
    obtain ⟨value, mid⟩ := found
    obtain ⟨hle, hfollows⟩ := h.reads hresult
    have hrest := hnext hresult hfollows
    have hbind : (a.andThen next).result = (next value mid).result := by
      rw [Attempt.result_andThen, hresult]
      rfl
    have hoffset : (a.andThen next).frontier.offset =
        max a.frontier.offset (next value mid).frontier.offset :=
      Attempt.offset_andThen_of_some hresult
    constructor
    · intro value' c' hsome
      rw [hbind] at hsome
      obtain ⟨hle', hfollows'⟩ := hrest.reads hsome
      have hreach := hfollows'.reaches.offset_le
      exact ⟨by omega, hfollows.trans hfollows'⟩
    · intro hnone
      rw [hbind] at hnone
      have hstuck := hrest.stuck hnone
      have hge := hstuck.offset_le
      rw [hoffset, Nat.max_eq_right (by omega)]
      exact .of_follows hfollows hstuck

theorem map {f : α → Cursor → β} (h : Traces a st st₁ c) :
    Traces (a.andThen fun value c => .success (f value c) c) st st₁ c :=
  h.andThen fun _ _ => .success rfl

theorem of_course {b : Attempt Goal β} (hcourse : SameCourse a b c₁.offset)
    (hfollows : Follows Decided st c st₁ c₁) (h : Traces b st₁ st₂ c₁) : Traces a st st₂ c := by
  constructor
  · intro value c' hsome
    have hstop := hcourse.stop
    rw [hsome, Option.map_some] at hstop
    obtain ⟨⟨value', c''⟩, hb, hc⟩ := Option.map_eq_some_iff.1 hstop.symm
    obtain rfl : c'' = c' := hc
    obtain ⟨hle, hfollows'⟩ := h.reads hb
    have hreach := hfollows'.reaches.offset_le
    have htop := hcourse.le
    exact ⟨by omega, hfollows.trans hfollows'⟩
  · intro hnone
    rw [hcourse.eq hnone]
    exact .of_follows hfollows (h.stuck (hcourse.result_eq_none.1 hnone))

end Traces
end HiccupReader.Clojure
