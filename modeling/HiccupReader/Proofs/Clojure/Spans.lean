import HiccupReader.Proofs.Clojure.Spelling

/-! The spans of a tree fit: they lie in each other as the nodes do, one behind the other, and
reach from the first token below a node to the last. -/

namespace HiccupReader.Clojure

open Matching

structure Nested (outer : Span) (spans : List Span) : Prop where
  inside : ∀ s ∈ spans, outer.start ≤ s.start ∧ s.start ≤ s.stop ∧ s.stop ≤ outer.stop
  ordered : spans.Pairwise fun a b => a.stop ≤ b.start

/-- A span reaches from the first token to the last. Without tokens it is empty. -/
structure Tight (span : Span) (tokens : List Token) : Prop where
  start : ∀ first ∈ tokens.head?, span.start = first.span.start
  stop : ∀ last ∈ tokens.getLast?, span.stop = last.span.stop
  empty : tokens = [] → span.start = span.stop

inductive Spaced : Tree → Prop
  | leaf (token : Token) : Spaced (.leaf token)
  | node {rule : Nat} {span : Span} {ts : List Tree} : Nested span (ts.map Tree.span) →
    Tight span (Rose.leavesAll ts) → (∀ t ∈ ts, Spaced t) → Spaced (.node ⟨rule, span⟩ ts)

namespace Nested

variable {start mid stop : Nat} {xs ys : List Span}

theorem nil (outer : Span) : Nested outer [] := ⟨by simp, .nil⟩

theorem singleton {s : Span} (hstart : start ≤ s.start) (hs : s.start ≤ s.stop)
    (hstop : s.stop ≤ stop) : Nested ⟨start, stop⟩ [s] :=
  ⟨by simpa using ⟨hstart, hs, hstop⟩, List.pairwise_singleton ..⟩

theorem append (h : Nested ⟨start, mid⟩ xs) (h' : Nested ⟨mid, stop⟩ ys) (hstart : start ≤ mid)
    (hstop : mid ≤ stop) : Nested ⟨start, stop⟩ (xs ++ ys) := by
  constructor
  · intro s hs
    rcases List.mem_append.1 hs with hs | hs
    · have hin := h.inside s hs
      simp only at hin ⊢
      omega
    · have hin := h'.inside s hs
      simp only at hin ⊢
      omega
  · rw [List.pairwise_append]
    refine ⟨h.ordered, h'.ordered, fun a ha b hb => ?_⟩
    have hin := h.inside a ha
    have hin' := h'.inside b hb
    simp only at hin hin'
    omega

theorem of_le (h : Nested ⟨mid, stop⟩ xs) (hstart : start ≤ mid) : Nested ⟨start, stop⟩ xs := by
  refine ⟨fun s hs => ?_, h.ordered⟩
  have hin := h.inside s hs
  simp only at hin ⊢
  omega

end Nested

structure Placed (c : Cursor) (t : Tree) (c' : Cursor) : Prop where
  reaches : c.Reaches c'
  span : t.span = ⟨c.offset, c'.offset⟩

theorem Placed.nested_cons {c c₁ c₂ : Cursor} {t : Tree} {ts : List Tree}
    (h : Placed (skipTrivia c) t c₁) (hreach : c₁.Reaches c₂)
    (hts : Nested ⟨c₁.offset, c₂.offset⟩ (ts.map Tree.span)) :
    Nested ⟨c.offset, c₂.offset⟩ ((t :: ts).map Tree.span) := by
  obtain ⟨hread, hspan⟩ := h
  have hfirst : Nested ⟨c.offset, c₁.offset⟩ [t.span] := by
    rw [hspan]
    exact .singleton (reaches_skipTrivia c).offset_le hread.offset_le Nat.le.refl
  exact hfirst.append hts ((reaches_skipTrivia c).trans hread).offset_le hreach.offset_le

section

variable {R : Reading} (step : ∀ {s c t c'}, R s c t c' → Placed c t c')

include step

theorem Items.nested {options : List Symbol} {c c' : Cursor} {ts : List Tree}
    (h : Items R options c ts c') : Nested ⟨c.offset, c'.offset⟩ (ts.map Tree.span) := by
  induction h with
  | done c => exact .nil _
  | item _ hread hrest ih =>
    exact (step hread).nested_cons (hrest.reaches fun h => (step h).reaches) ih

theorem Sequenced.nested {parts : List Part} {c c' : Cursor} {ts : List Tree}
    (h : Sequenced R parts c ts c') : Nested ⟨c.offset, c'.offset⟩ (ts.map Tree.span) := by
  have hreaches : ∀ {s c t c'}, R s c t c' → c.Reaches c' := fun h => (step h).reaches
  induction h with
  | done c => exact .nil _
  | one hread hrest ih => exact (step hread).nested_cons (hrest.reaches hreaches) ih
  | @many options parts c c₁ c₂ ts us hitems hrest ih =>
    have hskip := reaches_skipTrivia c
    rw [List.map_append]
    exact ((hitems.nested step).of_le hskip.offset_le).append ih
      (hskip.trans (hitems.reaches hreaches)).offset_le (hrest.reaches hreaches).offset_le
  | @finish parts c c' ts _ _ ih => exact ih.of_le (reaches_skipTrivia c).offset_le

theorem Produced.nested {p : Production} {c c' : Cursor} {ts : List Tree}
    (h : Produced R p c ts c') : Nested ⟨c.offset, c'.offset⟩ (ts.map Tree.span) := by
  cases h with
  | sequence hparts => exact hparts.nested step
  | @choice options s c c' t _ hread =>
    obtain ⟨hreach, hspan⟩ := step hread
    rw [List.map_singleton, hspan]
    exact .singleton Nat.le.refl hreach.offset_le Nat.le.refl

end

theorem Spells.stop_eq {P : TokenKind → List Char → Prop} {c c' : Cursor} {ts : List Token}
    (h : Spells P c ts c') : ∀ last ∈ ts.getLast?, c'.offset = last.span.stop := by
  induction h with
  | done c => simp
  | @token k c c' taken left ts _ _ hrest ih =>
    intro last hlast
    cases hrest with
    | done =>
      obtain rfl := Option.mem_some.1 hlast
      rfl
    | token => exact ih last (by simpa using hlast)

theorem Spells.tight {P : TokenKind → List Char → Prop} {c c' : Cursor} {ts : List Token}
    (h : Spells P c ts c') (hc : Settled c) : Tight ⟨c.offset, c'.offset⟩ ts where
  start first hfirst := by
    cases h with
    | done => cases hfirst
    | token =>
      obtain rfl := Option.mem_some.1 hfirst
      exact congrArg Cursor.offset hc.symm
  stop := h.stop_eq
  empty hts := by
    subst hts
    cases h
    rfl

section

variable {R : Reading}

theorem Items.forall_mem {options : List Symbol} {c c' : Cursor} {ts : List Tree}
    (h : Items R options c ts c') :
    ∀ t ∈ ts, ∃ s ∈ options, ∃ d d', Settled d ∧ R s d t d' := by
  induction h with
  | done c => simp
  | item hs hread _ ih =>
    exact List.forall_mem_cons.2 ⟨⟨_, hs, _, _, settled_skipTrivia _, hread⟩, ih⟩

theorem Sequenced.forall_mem {parts : List Part} {c c' : Cursor} {ts : List Tree}
    (h : Sequenced R parts c ts c') :
    ∀ t ∈ ts, ∃ s ∈ parts.flatMap Part.symbols, ∃ d d', Settled d ∧ R s d t d' := by
  induction h with
  | done c => simp
  | one hread _ ih =>
    rw [List.forall_mem_cons]
    refine ⟨⟨_, List.mem_append_left _ (List.mem_singleton_self _), _, _,
      settled_skipTrivia _, hread⟩, fun t ht => ?_⟩
    obtain ⟨s, hs, hrest⟩ := ih t ht
    exact ⟨s, List.mem_append_right _ hs, hrest⟩
  | many hitems _ ih =>
    rw [List.forall_mem_append]
    constructor
    · intro t ht
      obtain ⟨s, hs, hrest⟩ := hitems.forall_mem t ht
      exact ⟨s, List.mem_append_left _ hs, hrest⟩
    · intro t ht
      obtain ⟨s, hs, hrest⟩ := ih t ht
      exact ⟨s, List.mem_append_right _ hs, hrest⟩
  | finish _ _ ih => exact ih

end

def Production.symbols : Production → List Symbol
  | .sequence parts => parts.flatMap Part.symbols
  | .choice options => options

theorem Produced.forall_mem {R : Reading} {p : Production} {c c' : Cursor} {ts : List Tree}
    (h : Produced R p c ts c') (hc : Settled c) :
    ∀ t ∈ ts, ∃ s ∈ p.symbols, ∃ d d', Settled d ∧ R s d t d' := by
  cases h with
  | sequence hparts => exact hparts.forall_mem
  | choice hs hread =>
    intro t ht
    obtain rfl := List.mem_singleton.1 ht
    exact ⟨_, hs, c, c', hc, hread⟩

theorem Rule.symbols_inner (r : Rule) : ∀ s ∈ r.production.symbols, s.inner = true := by
  cases r <;> decide

structure Fits (s : Symbol) (c : Cursor) (t : Tree) (c' : Cursor) : Prop where
  placed : Placed c t c'
  spelled : Settled c → Spelled s c t.leaves c'
  spaced : Settled c → s.inner = true → Spaced t

theorem fits_of_reading {s : Symbol} {c c' : Cursor} {t : Tree}
    (h : readingOf matchAt s c t c') : Fits s c t c' := by
  apply reading_of_matchAt (R := Fits) _ _ h
  · intro k c taken left hcut
    have hread : readingOf matchAt (.token k) c (.leaf (k.token c taken)) (c.advance taken left) :=
      readingOf_token_iff.2 ⟨taken, left, hcut, rfl, rfl⟩
    exact ⟨⟨reaches_of_lexeme hcut, rfl⟩, spelled_of_reading hread, fun _ _ => .leaf _⟩
  · intro r c ts c' hparts
    have hplaced : Placed c (.node ⟨r.index, c.offset, c'.offset⟩ ts) c' :=
      ⟨hparts.reaches fun h => h.placed.reaches, rfl⟩
    have hspelled : Settled c → Spelled (.rule r) c (Rose.leavesAll ts) c' :=
      (hparts.mono Fits.spelled).spelled
    refine ⟨hplaced, hspelled, fun hc hinner => ?_⟩
    -- The children are below the entry rules as well, so that each of them ends with a token.
    refine .node (hparts.nested Fits.placed) (((hspelled hc).exactly hinner).tight hc) ?_
    intro t ht
    obtain ⟨s, hs, d, d', hd, hfits⟩ := hparts.forall_mem hc t ht
    exact hfits.spaced hd (r.symbols_inner s hs)

end HiccupReader.Clojure
