import HiccupReader.Proofs.Clojure.Derivation
import HiccupReader.Proofs.Clojure.Spelling

/-! With which token kinds a symbol may begin. The options of a choice begin with different kinds,
also where the text allows a kind that the lexer does not prefer, so that the next token decides
between them. -/

namespace HiccupReader.Clojure

open Matching

def Production.firsts : Production → List Symbol
  | .choice options => options
  | .sequence (.one s :: _) => [s]
  | .sequence _ => []

/-- The kinds that a symbol may begin with, where at most `depth` rules begin with each other. -/
def Symbol.leadsWithin : (depth : Nat) → Symbol → List TokenKind
  | _, .token k => [k]
  | 0, .rule _ => []
  | depth + 1, .rule r => r.production.firsts.flatMap (leadsWithin depth)

def Symbol.leads (s : Symbol) : List TokenKind := s.leadsWithin 3

theorem Rule.firsts_leads {r : Rule} (h : (Symbol.rule r).full = true) :
    ∀ s ∈ r.production.firsts, s.full = true ∧ ∀ k ∈ s.leads, k ∈ (Symbol.rule r).leads := by
  cases r with
  | code | tokens | forms => cases h
  | _ => decide

theorem Rule.production_opens {r : Rule} (h : (Symbol.rule r).full = true) :
    (∃ options, r.production = .choice options) ∨
      ∃ s parts, r.production = .sequence (.one s :: parts) := by
  cases r with
  | code | tokens | forms => cases h
  | form | collection | readerMacro | literal => exact .inl ⟨_, rfl⟩
  | _ => exact .inr ⟨_, _, rfl⟩

theorem Produced.exists_first {R : Reading} {r : Rule} {c c' : Cursor} {ts : List Tree}
    (hfull : (Symbol.rule r).full = true) (hc : Settled c) (h : Produced R r.production c ts c') :
    ∃ s ∈ r.production.firsts, ∃ t d, R s c t d := by
  rcases Rule.production_opens hfull with ⟨options, hr⟩ | ⟨s, parts, hr⟩ <;> rw [hr] at h ⊢
  · cases h with
    | choice hs hread => exact ⟨_, hs, _, _, hread⟩
  · cases h with
    | sequence hparts =>
      cases hparts with
      | one hread _ =>
        rw [hc] at hread
        exact ⟨s, List.mem_singleton_self s, _, _, hread⟩

theorem exists_lead_of_reading {s : Symbol} {c c' : Cursor} {t : Tree}
    (h : readingOf matchAt s c t c') (hc : Settled c) (hfull : s.full = true) :
    ∃ k ∈ s.leads, (k.lexeme c.rest).isSome := by
  apply reading_of_matchAt (R := fun s c _ _ => Settled c → s.full = true →
    ∃ k ∈ s.leads, (k.lexeme c.rest).isSome) _ _ h hc hfull
  · intro k c taken left hcut _ _
    exact ⟨k, List.mem_singleton_self k, by simp [hcut]⟩
  · intro r c ts c' hparts hc hfull
    obtain ⟨s, hs, t, d, hread⟩ := hparts.exists_first hfull hc
    obtain ⟨hfirst, hleads⟩ := Rule.firsts_leads hfull s hs
    obtain ⟨k, hk, hsome⟩ := hread hc hfirst
    exact ⟨k, hleads k hk, hsome⟩

theorem Production.Allows.exists_first {r : Rule} {ss : List Symbol}
    (hfull : (Symbol.rule r).full = true) (h : r.production.Allows ss) :
    ∃ s ∈ r.production.firsts, ∃ us, ss = s :: us := by
  rcases Rule.production_opens hfull with ⟨options, hr⟩ | ⟨s, parts, hr⟩ <;> rw [hr] at h ⊢
  · obtain ⟨s, hs, rfl⟩ := h
    exact ⟨s, hs, [], rfl⟩
  · obtain ⟨us, rfl, -⟩ := AllowsInOrder.cons_one h
    exact ⟨s, List.mem_singleton_self s, us, rfl⟩

theorem Derivation.Valid.exists_lead {d : Derivation} (h : d.Valid) (hfull : d.root.full = true) :
    ∃ k ks, d.leaves = k :: ks ∧ k ∈ d.root.leads := by
  induction h with
  | token k => exact ⟨k, [], rfl, List.mem_singleton_self k⟩
  | @rule r ds hallows _ ih =>
    obtain ⟨s, hs, us, hroots⟩ := hallows.exists_first hfull
    obtain ⟨d, es, rfl, rfl, -⟩ := List.map_eq_cons_iff.1 hroots
    obtain ⟨hfirst, hleads⟩ := Rule.firsts_leads hfull d.root hs
    obtain ⟨k, ks, hleaves, hk⟩ := ih d (List.mem_cons_self ..) hfirst
    refine ⟨k, ks ++ Rose.leavesAll es, ?_, hleads k hk⟩
    rw [Rose.leaves, Rose.leavesAll, hleaves, List.cons_append]

theorem Rule.earlier_avoids {r : Rule} {options : List Symbol}
    (hr : r.production = .choice options) :
    ∀ s ∈ options, ∀ x ∈ options.takeWhile (· ≠ s), ∀ k ∈ s.leads, ∀ j ∈ x.leads,
      ¬ (j = k ∨ j ∈ k.rivals) := by
  cases r <;> cases hr <;> decide

theorem Rule.options_full {r : Rule} {options : List Symbol} (hr : r.production = .choice options) :
    ∀ s ∈ options, s.full = true := by
  cases r <;> cases hr <;> decide

def closers : List TokenKind := [.rightParen, .rightBracket, .rightBrace]

theorem closers_avoid_form :
    ∀ k ∈ closers, ∀ j ∈ (Symbol.rule .form).leads, ¬ (j = k ∨ j ∈ k.rivals) := by
  decide

def Stops (c : Cursor) : Prop := (matchAt .form (skipTrivia c)).result = none

theorem result_eq_none_of_avoids {s : Symbol} {k : TokenKind} {c : Cursor} (hc : Settled c)
    (hfull : s.full = true) (hk : k.Preferred c.rest)
    (havoids : ∀ j ∈ s.leads, ¬ (j = k ∨ j ∈ k.rivals)) :
    (matchSymbol matchAt s c).result = none := by
  rw [Option.eq_none_iff_forall_not_mem]
  rintro ⟨t, c'⟩ hread
  obtain ⟨j, hj, hsome⟩ := exists_lead_of_reading hread hc hfull
  exact havoids j hj (hk.eq_or_mem_rivals hsome)

theorem Stops.of_closer {k : TokenKind} {c : Cursor} (hmem : k ∈ closers)
    (hk : k.Preferred (skipTrivia c).rest) : Stops c :=
  result_eq_none_of_avoids (s := .rule .form) (settled_skipTrivia c) rfl hk
    (closers_avoid_form k hmem)

theorem Stops.of_end {c : Cursor} (h : (skipTrivia c).rest = []) : Stops c := by
  rw [Stops, Option.eq_none_iff_forall_not_mem]
  rintro ⟨t, c'⟩ hread
  obtain ⟨k, -, hsome⟩ :=
    exists_lead_of_reading (s := .rule .form) hread (settled_skipTrivia c) rfl
  rw [h, k.lexeme_nil] at hsome
  cases hsome

end HiccupReader.Clojure
