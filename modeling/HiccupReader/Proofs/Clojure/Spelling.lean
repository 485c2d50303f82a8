import HiccupReader.Proofs.Clojure.Depth

/-! The tokens of a match stand in its text one after the other, with trivia before each. How a
place is read as a token is left open: any token of a kind that fits, or the one of the lexer. -/

namespace HiccupReader.Clojure

open Matching

/-- The tokens stand between two places. Each is the text of its kind, read where the criterion
allows it, and the last one ends at the second place. -/
inductive Spells (P : TokenKind → List Char → Prop) : Cursor → List Token → Cursor → Prop
  | done (c : Cursor) : Spells P c [] c
  | token {k : TokenKind} {c c' : Cursor} {taken left : List Char} {ts : List Token} :
    k.lexeme (skipTrivia c).rest = some (taken, left) → P k (skipTrivia c).rest →
      Spells P ((skipTrivia c).advance taken left) ts c' →
      Spells P c (k.token (skipTrivia c) taken :: ts) c'

def SpellsUpTo (P : TokenKind → List Char → Prop) (c : Cursor) (ts : List Token) (c' : Cursor) :
    Prop := ∃ stop, Spells P c ts stop ∧ (c' = stop ∨ c' = skipTrivia stop)

variable {P : TokenKind → List Char → Prop} {c c₁ c₂ : Cursor} {ts us : List Token}

namespace Spells

theorem append (h : Spells P c ts c₁) (h' : Spells P c₁ us c₂) : Spells P c (ts ++ us) c₂ := by
  induction h with
  | done c => exact h'
  | token hcut hp _ ih => exact .token hcut hp (ih h')

theorem imp {Q : TokenKind → List Char → Prop} (himp : ∀ {k cs}, P k cs → Q k cs)
    (h : Spells P c ts c₁) : Spells Q c ts c₁ := by
  induction h with
  | done c => exact .done c
  | token hcut hp _ ih => exact .token hcut (himp hp) ih

theorem cons {k : TokenKind} {taken left : List Char} (hc : Settled c)
    (hcut : k.lexeme c.rest = some (taken, left)) (hp : P k c.rest)
    (h : Spells P (c.advance taken left) ts c₁) : Spells P c (k.token c taken :: ts) c₁ := by
  rw [← hc] at hcut hp h
  have hcons := Spells.token hcut hp h
  rwa [hc] at hcons

theorem exists_cut (h : Spells P c ts c₁) :
    ∀ token ∈ ts, ∃ k : TokenKind, ∃ cs taken left, token.rule = k.index ∧
      token.text = String.ofList taken ∧ k.lexeme cs = some (taken, left) ∧ P k cs := by
  induction h with
  | done c => simp
  | token hcut hp _ ih => exact List.forall_mem_cons.2 ⟨⟨_, _, _, _, rfl, rfl, hcut, hp⟩, ih⟩

theorem of_skipTrivia (h : Spells P (skipTrivia c) ts c₁) (hts : ts ≠ []) : Spells P c ts c₁ := by
  generalize hd : skipTrivia c = d at h
  cases h with
  | done => exact absurd rfl hts
  | token hcut hp hrest =>
    have hsettled : skipTrivia d = skipTrivia c := by rw [← hd, skipTrivia_skipTrivia]
    rw [hsettled] at hcut hp hrest ⊢
    exact .token hcut hp hrest

theorem skip (h : Spells P c ts c₁) (hts : ts ≠ []) : Spells P (skipTrivia c) ts c₁ := by
  cases h with
  | done => exact absurd rfl hts
  | token hcut hp hrest =>
    have hsettled := settled_skipTrivia c
    generalize skipTrivia c = d at hcut hp hrest hsettled ⊢
    rw [← hsettled] at hcut hp hrest
    have hspells := Spells.token hcut hp hrest
    rwa [hsettled] at hspells

theorem exists_of_skip_eq {d : Cursor} (h : Spells P c ts c₁) (hskip : skipTrivia d = skipTrivia c) :
    ∃ stop, Spells P d ts stop ∧ skipTrivia stop = skipTrivia c₁ := by
  by_cases hts : ts = []
  · subst hts
    cases h
    exact ⟨d, .done d, hskip⟩
  · have hspells := h.skip hts
    rw [← hskip] at hspells
    exact ⟨c₁, hspells.of_skipTrivia hts, rfl⟩

theorem exists_of_skipTrivia (h : Spells P c ts c₁) (hend : (skipTrivia c₁).rest = []) :
    ∃ stop, Spells P (skipTrivia c) ts stop ∧ (skipTrivia stop).rest = [] := by
  obtain ⟨stop, hspells, hstop⟩ := h.exists_of_skip_eq (skipTrivia_skipTrivia c)
  exact ⟨stop, hspells, by rwa [hstop]⟩

theorem split (h : Spells P c (ts ++ us) c₂) : ∃ d, Spells P c ts d ∧ Spells P d us c₂ := by
  induction ts generalizing c with
  | nil => exact ⟨c, .done c, h⟩
  | cons t ts ih =>
    cases h with
    | token hcut hp hrest =>
      obtain ⟨d, hfirst, hsecond⟩ := ih hrest
      exact ⟨d, .token hcut hp hfirst, hsecond⟩

theorem reaches (h : Spells P c ts c₁) : c.Reaches c₁ := by
  induction h with
  | done c => exact .refl c
  | token hcut _ _ ih => exact ((reaches_skipTrivia _).trans (reaches_of_lexeme hcut)).trans ih

theorem length_lt (h : Spells P c ts c₁) (hts : ts ≠ []) : c₁.rest.length < c.rest.length := by
  cases h with
  | done => exact absurd rfl hts
  | token hcut _ hrest =>
    have hskip := (reaches_skipTrivia c).length_le
    have hfirst := length_lt_of_lexeme hcut
    have hmore := hrest.reaches.length_le
    omega

end Spells

namespace SpellsUpTo

theorem done (c : Cursor) : SpellsUpTo P c [] c := ⟨c, .done c, .inl rfl⟩

theorem of_spells (h : Spells P c ts c₁) : SpellsUpTo P c ts c₁ := ⟨c₁, h, .inl rfl⟩

theorem cons {k : TokenKind} {taken left : List Char} (hc : Settled c)
    (hcut : k.lexeme c.rest = some (taken, left)) (hp : P k c.rest)
    (h : SpellsUpTo P (c.advance taken left) ts c₁) :
    SpellsUpTo P c (k.token c taken :: ts) c₁ := by
  obtain ⟨stop, hspells, hstop⟩ := h
  exact ⟨stop, hspells.cons hc hcut hp, hstop⟩

theorem of_skipTrivia (h : SpellsUpTo P (skipTrivia c) ts c₁) : SpellsUpTo P c ts c₁ := by
  obtain ⟨stop, hspells, hstop⟩ := h
  by_cases hts : ts = []
  · subst hts
    cases hspells
    refine ⟨c, .done c, .inr ?_⟩
    rcases hstop with rfl | rfl
    · rfl
    · exact skipTrivia_skipTrivia c
  · exact ⟨stop, hspells.of_skipTrivia hts, hstop⟩

theorem append (h : SpellsUpTo P c ts c₁) (h' : SpellsUpTo P c₁ us c₂) :
    SpellsUpTo P c (ts ++ us) c₂ := by
  rcases h with ⟨stop, hspells, rfl | rfl⟩
  · obtain ⟨stop', hspells', hstop⟩ := h'
    exact ⟨stop', hspells.append hspells', hstop⟩
  · obtain ⟨stop', hspells', hstop⟩ := h'.of_skipTrivia
    exact ⟨stop', hspells.append hspells', hstop⟩

theorem append_spells (h : SpellsUpTo P c ts c₁) (h' : Spells P (skipTrivia c₁) us c₂)
    (hus : us ≠ []) : Spells P c (ts ++ us) c₂ := by
  rcases h with ⟨stop, hspells, rfl | rfl⟩
  · exact hspells.append (h'.of_skipTrivia hus)
  · rw [skipTrivia_skipTrivia] at h'
    exact hspells.append (h'.of_skipTrivia hus)

end SpellsUpTo

section

variable {R : Reading}
  (step : ∀ {s c t c'}, R s c t c' → Settled c → SpellsUpTo P c t.leaves c')

include step

theorem Items.spells {options : List Symbol} {c c' : Cursor} {ts : List Tree}
    (h : Items R options c ts c') : SpellsUpTo P c (Rose.leavesAll ts) c' := by
  induction h with
  | done c => exact .done c
  | item _ hread _ ih =>
    exact (step hread (settled_skipTrivia _)).of_skipTrivia.append ih

theorem Sequenced.spells {parts : List Part} {c c' : Cursor} {ts : List Tree}
    (h : Sequenced R parts c ts c') : SpellsUpTo P c (Rose.leavesAll ts) c' := by
  induction h with
  | done c => exact .done c
  | one hread _ ih => exact (step hread (settled_skipTrivia _)).of_skipTrivia.append ih
  | many hitems _ ih =>
    rw [Rose.leavesAll_append]
    exact (hitems.spells step).of_skipTrivia.append ih
  | finish _ _ ih => exact ih.of_skipTrivia

theorem Produced.spells {p : Production} {c c' : Cursor} {ts : List Tree}
    (h : Produced R p c ts c') (hc : Settled c) : SpellsUpTo P c (Rose.leavesAll ts) c' := by
  cases h with
  | sequence hparts => exact hparts.spells step
  | choice _ hread =>
    rw [Rose.leavesAll, Rose.leavesAll, List.append_nil]
    exact step hread hc

end

theorem Sequenced.append {R : Reading} {parts parts' : List Part} {c c' : Cursor}
    {ts : List Tree} (h : Sequenced R (parts ++ parts') c ts c') :
    ∃ us vs d, ts = us ++ vs ∧ Sequenced R parts c us d ∧ Sequenced R parts' d vs c' := by
  induction parts generalizing c ts with
  | nil => exact ⟨[], ts, c, rfl, .done c, h⟩
  | cons part parts ih =>
    cases h with
    | one hread hrest =>
      obtain ⟨us, vs, d, rfl, hfirst, hsecond⟩ := ih hrest
      exact ⟨_ :: us, vs, d, rfl, .one hread hfirst, hsecond⟩
    | many hitems hrest =>
      obtain ⟨us, vs, d, rfl, hfirst, hsecond⟩ := ih hrest
      exact ⟨_ ++ us, vs, d, (List.append_assoc ..).symm, .many hitems hfirst, hsecond⟩
    | finish hend hrest =>
      obtain ⟨us, vs, d, rfl, hfirst, hsecond⟩ := ih hrest
      exact ⟨us, vs, d, rfl, .finish hend hfirst, hsecond⟩

def Symbol.inner : Symbol → Bool
  | .rule .code | .rule .tokens => false
  | _ => true

def Symbol.full : Symbol → Bool
  | .rule .forms => false
  | s => s.inner

theorem Rule.eq_forms {r : Rule} (h : (Symbol.rule r).inner = true)
    (hfull : ¬ (Symbol.rule r).full = true) : r = .forms := by
  cases r <;> simp_all [Symbol.full, Symbol.inner]

def Production.Closed : Production → Prop
  | .choice options => ∀ s ∈ options, s.full = true
  | .sequence parts => ∃ init s, parts = init ++ [.one s] ∧ s.full = true

theorem Rule.production_closed {r : Rule} (h : (Symbol.rule r).full = true) :
    r.production.Closed := by
  cases r with
  | code | tokens | forms => cases h
  | form | collection | readerMacro | literal =>
    rw [production, Production.Closed]
    decide
  | metadata =>
    exact ⟨[.one (.token .caret), .one (.rule .form)], .rule .form, rfl, rfl⟩
  | list | vector | map | set | fnLiteral | readerConditional => exact ⟨[_, _], _, rfl, rfl⟩
  | number | character | nil | boolean | keyword | string | regex | symbolicValue | symbol =>
    exact ⟨[], _, rfl, rfl⟩
  | _ => exact ⟨[_], _, rfl, rfl⟩

structure Spelled (s : Symbol) (c : Cursor) (ts : List Token) (c' : Cursor) : Prop where
  upTo : SpellsUpTo (fun _ _ => True) c ts c'
  exactly : s.inner = true → Spells (fun _ _ => True) c ts c'
  ne_nil : s.full = true → ts ≠ []

theorem Symbol.inner_of_full {s : Symbol} (h : s.full = true) : s.inner = true := by
  unfold full at h
  split at h
  · cases h
  · exact h

def spelling : Reading := fun s c t c' => Settled c → Spelled s c t.leaves c'

theorem Items.spells_exactly {options : List Symbol} {c c' : Cursor} {ts : List Tree}
    (hfull : ∀ s ∈ options, s.full = true) (h : Items spelling options c ts c') :
    Spells (fun _ _ => True) c (Rose.leavesAll ts) c' := by
  induction h with
  | done c => exact .done c
  | item hs hread _ ih =>
    have hspelled := hread (settled_skipTrivia _)
    have hfirst := hspelled.exactly (Symbol.inner_of_full (hfull _ hs))
    exact (hfirst.of_skipTrivia (hspelled.ne_nil (hfull _ hs))).append ih

theorem Produced.spells_exactly {p : Production} {c c' : Cursor} {ts : List Tree}
    (hclosed : p.Closed) (hc : Settled c) (h : Produced spelling p c ts c') :
    Spells (fun _ _ => True) c (Rose.leavesAll ts) c' ∧ Rose.leavesAll ts ≠ [] := by
  cases h with
  | choice hs hread =>
    have hspelled := hread hc
    rw [Rose.leavesAll, Rose.leavesAll, List.append_nil]
    exact ⟨hspelled.exactly (Symbol.inner_of_full (hclosed _ hs)),
      hspelled.ne_nil (hclosed _ hs)⟩
  | sequence hparts =>
    obtain ⟨init, s, rfl, hs⟩ := hclosed
    obtain ⟨us, vs, d, rfl, hinit, hlast⟩ := hparts.append
    have hfirst : SpellsUpTo (fun _ _ => True) c (Rose.leavesAll us) d :=
      hinit.spells fun hread hsettled => (hread hsettled).upTo
    cases hlast with
    | one hread hdone =>
      cases hdone
      have hspelled := hread (settled_skipTrivia d)
      have hne := hspelled.ne_nil hs
      rw [Rose.leavesAll_append, Rose.leavesAll, Rose.leavesAll, List.append_nil]
      exact ⟨hfirst.append_spells (hspelled.exactly (Symbol.inner_of_full hs)) hne,
        List.append_ne_nil_of_right_ne_nil _ hne⟩

theorem Produced.spells_forms {c c' : Cursor} {ts : List Tree} (hc : Settled c)
    (h : Produced spelling Rule.forms.production c ts c') :
    Spells (fun _ _ => True) c (Rose.leavesAll ts) c' := by
  cases h with
  | sequence hparts =>
    cases hparts with
    | many hitems hdone =>
      cases hdone
      rw [hc] at hitems
      rw [List.append_nil]
      exact hitems.spells_exactly (by decide)

theorem Produced.spelled {r : Rule} {c c' : Cursor} {ts : List Tree}
    (h : Produced spelling r.production c ts c') (hc : Settled c) :
    Spelled (.rule r) c (Rose.leavesAll ts) c' := by
  have hupTo : SpellsUpTo (fun _ _ => True) c (Rose.leavesAll ts) c' :=
    h.spells (fun hread hsettled => (hread hsettled).upTo) hc
  by_cases hfull : (Symbol.rule r).full = true
  · obtain ⟨hspells, hne⟩ := h.spells_exactly (Rule.production_closed hfull) hc
    exact ⟨hupTo, fun _ => hspells, fun _ => hne⟩
  · -- A run of forms is the one rule that may have no token without taking the text to its end.
    refine ⟨hupTo, fun hinner => ?_, fun h => absurd h hfull⟩
    obtain rfl : r = .forms := Rule.eq_forms hinner hfull
    exact h.spells_forms hc

theorem spelled_of_reading {s : Symbol} {t : Tree} (h : readingOf matchAt s c t c₁)
    (hc : Settled c) : Spelled s c t.leaves c₁ := by
  apply reading_of_matchAt (R := spelling) _ _ h hc
  · intro k c taken left hcut hc
    have hone : Spells (fun _ _ => True) c [k.token c taken] (c.advance taken left) := by
      rw [← hc] at hcut
      have hspells := Spells.token (P := fun _ _ => True) hcut trivial (.done _)
      rwa [hc] at hspells
    exact ⟨.of_spells hone, fun _ => hone, fun _ => List.cons_ne_nil _ _⟩
  · intro r c ts c' hparts hc
    exact hparts.spelled hc

theorem length_lt_of_reading {s : Symbol} {t : Tree} (h : readingOf matchAt s c t c₁)
    (hc : Settled c) (hfull : s.full = true) : c₁.rest.length < c.rest.length := by
  have hspelled := spelled_of_reading h hc
  exact (hspelled.exactly (Symbol.inner_of_full hfull)).length_lt (hspelled.ne_nil hfull)

end HiccupReader.Clojure
