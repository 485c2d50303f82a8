import HiccupReader.Proofs.Clojure.Forms

/-! Where the parts of a tree are read. Each of them is read somewhere on its own, behind the tokens
that stand before it. -/

namespace HiccupReader.Clojure

open Matching

variable {R : Reading} {s : Symbol} {c c' c₁ d d' : Cursor} {t u : Tree} {ts vs : List Tree}
  {us tokens before after : List Token}

/-- Among the tokens from a place on are those of a tree that is read by itself, between two places
of which the first is reached with the tokens before. -/
structure Occurs (R : Reading) (c : Cursor) (tokens : List Token) (s : Symbol) (t : Tree)
    (d d' : Cursor) (before after : List Token) : Prop where
  settled : Settled d
  reading : R s d t d'
  tokens_eq : tokens = before ++ (t.leaves ++ after)
  spells : SpellsUpTo (fun _ _ => True) c before d

namespace Occurs

theorem here (h : R s (skipTrivia c) t c') : Occurs R c t.leaves s t (skipTrivia c) c' [] [] where
  settled := settled_skipTrivia c
  reading := h
  tokens_eq := (List.append_nil _).symm
  spells := (SpellsUpTo.done _).of_skipTrivia

theorem prepend (hus : SpellsUpTo (fun _ _ => True) c us c₁)
    (h : Occurs R c₁ tokens s t d d' before after) :
    Occurs R c (us ++ tokens) s t d d' (us ++ before) after where
  settled := h.settled
  reading := h.reading
  tokens_eq := by rw [h.tokens_eq, List.append_assoc]
  spells := hus.append h.spells

theorem extend (h : Occurs R c tokens s t d d' before after) (us : List Token) :
    Occurs R c (tokens ++ us) s t d d' before (after ++ us) where
  settled := h.settled
  reading := h.reading
  tokens_eq := by rw [h.tokens_eq, List.append_assoc, List.append_assoc]
  spells := h.spells

theorem of_skipTrivia (h : Occurs R (skipTrivia c) tokens s t d d' before after) :
    Occurs R c tokens s t d d' before after where
  settled := h.settled
  reading := h.reading
  tokens_eq := h.tokens_eq
  spells := h.spells.of_skipTrivia

end Occurs

def OccurAll (R : Reading) (c : Cursor) (ts : List Tree) : Prop :=
  ∀ t ∈ ts, ∃ s d d' before after, Occurs R c (Rose.leavesAll ts) s t d d' before after

namespace OccurAll

theorem of_skipTrivia (h : OccurAll R (skipTrivia c) ts) : OccurAll R c ts := by
  intro t ht
  obtain ⟨s, d, d', before, after, hoccurs⟩ := h t ht
  exact ⟨s, d, d', before, after, hoccurs.of_skipTrivia⟩

theorem append (hts : OccurAll R c ts)
    (hspells : SpellsUpTo (fun _ _ => True) c (Rose.leavesAll ts) c₁) (hvs : OccurAll R c₁ vs) :
    OccurAll R c (ts ++ vs) := by
  intro t ht
  rw [Rose.leavesAll_append]
  rcases List.mem_append.1 ht with hmem | hmem
  · obtain ⟨s, d, d', before, after, hoccurs⟩ := hts t hmem
    exact ⟨s, d, d', before, _, hoccurs.extend _⟩
  · obtain ⟨s, d, d', before, after, hoccurs⟩ := hvs t hmem
    exact ⟨s, d, d', _, after, hoccurs.prepend hspells⟩

theorem single (h : R s (skipTrivia c) t c') : OccurAll R c [t] := by
  rw [OccurAll, Rose.leavesAll, Rose.leavesAll]
  exact List.forall_mem_singleton.2 ⟨_, _, _, _, _, (Occurs.here h).extend []⟩

end OccurAll

section

variable (step : ∀ {s c t c'}, R s c t c' → Settled c →
  SpellsUpTo (fun _ _ => True) c t.leaves c')

include step

theorem OccurAll.cons (hread : R s (skipTrivia c) t c₁) (hts : OccurAll R c₁ ts) :
    OccurAll R c (t :: ts) := by
  have hspells := (step hread (settled_skipTrivia _)).of_skipTrivia
  refine (OccurAll.single hread).append ?_ hts
  rwa [Rose.leavesAll, Rose.leavesAll, List.append_nil]

theorem Items.occurAll {options : List Symbol} (h : Items R options c ts c') :
    OccurAll R c ts := by
  induction h with
  | done => exact List.forall_mem_nil _
  | item _ hread _ ih => exact ih.cons step hread

theorem Sequenced.occurAll {parts : List Part} (h : Sequenced R parts c ts c') :
    OccurAll R c ts := by
  induction h with
  | done => exact List.forall_mem_nil _
  | one hread _ ih => exact ih.cons step hread
  | many hitems _ ih =>
    exact (hitems.occurAll step).of_skipTrivia.append (hitems.spells step).of_skipTrivia ih
  | finish _ _ ih => exact ih.of_skipTrivia

theorem Produced.occurAll {p : Production} (h : Produced R p c ts c') (hc : Settled c) :
    OccurAll R c ts := by
  cases h with
  | sequence hparts => exact hparts.occurAll step
  | choice _ hread =>
    rw [← hc] at hread
    exact .single hread

end

theorem upTo_of_reading (h : readingOf matchAt s c t c') (hc : Settled c) :
    SpellsUpTo (fun _ _ => True) c t.leaves c' := (spelled_of_reading h hc).upTo

theorem Occurs.trans {s' : Symbol} {e e' : Cursor} {before' after' : List Token}
    (h : Occurs R c tokens s t d d' before after)
    (h' : Occurs R d t.leaves s' u e e' before' after') :
    Occurs R c tokens s' u e e' (before ++ before') (after' ++ after) := by
  rw [h.tokens_eq]
  exact (h'.extend after).prepend h.spells

theorem exists_occurs_of_within (hu : Rose.Within u t) (h : readingOf matchAt s c t c')
    (hc : Settled c) : ∃ s d d' before after,
      Occurs (readingOf matchAt) c t.leaves s u d d' before after := by
  induction hu generalizing s c c' with
  | whole t =>
    rw [← hc] at h
    exact ⟨_, _, _, _, _, .here h⟩
  | @inside label u t children hmem _ ih =>
    cases s with
    | token k =>
      obtain ⟨taken, left, -, htree, -⟩ := readingOf_token_iff.1 h
      cases htree
    | rule r =>
      obtain ⟨ts, hparts, hnode⟩ := produced_of_reading h
      obtain ⟨rfl, rfl⟩ := Rose.node.inj hnode
      obtain ⟨s, d, d', before, after, hchild⟩ := hparts.occurAll upTo_of_reading hc t hmem
      obtain ⟨s', e, e', before', after', hpart⟩ := ih hchild.reading hchild.settled
      exact ⟨s', e, e', _, _, hchild.trans hpart⟩

end HiccupReader.Clojure
