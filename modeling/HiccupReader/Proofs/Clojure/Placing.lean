import HiccupReader.Proofs.Clojure.Derivation
import HiccupReader.Proofs.Clojure.Spans
import HiccupReader.Proofs.Tree

/-! The places of nodes are no more than their tokens say. A node reaches from its first token to
its last; a run of no forms stands where the next token begins. So a tree that was read is given by
its shape and its tokens. -/

namespace HiccupReader

namespace Tree

def skeleton (t : Tree) : Rose Nat Token := t.map RuleMatch.rule id

def beginning (next : Nat) (tokens : List Token) : Nat :=
  tokens.head?.elim next fun token => token.span.start

def ending (next : Nat) (tokens : List Token) : Nat :=
  tokens.getLast?.elim next fun token => token.span.stop

theorem beginning_append (next : Nat) (xs ys : List Token) :
    beginning next (xs ++ ys) = beginning (beginning next ys) xs := by
  cases xs <;> rfl

theorem beginning_of_ne_nil {tokens : List Token} (h : tokens ≠ []) (next next' : Nat) :
    beginning next tokens = beginning next' tokens := by
  cases tokens with
  | nil => exact absurd rfl h
  | cons token tokens => rfl

mutual

def place (next : Nat) : Rose Nat Token → Tree
  | .leaf token => .leaf token
  | .node rule ts =>
    .node ⟨rule, beginning next (Rose.leavesAll ts), ending next (Rose.leavesAll ts)⟩
      (placeAll next ts)

def placeAll (next : Nat) : List (Rose Nat Token) → List Tree
  | [] => []
  | t :: ts => place (beginning next (Rose.leavesAll ts)) t :: placeAll next ts

end

theorem placeAll_append (next : Nat) (xs ys : List (Rose Nat Token)) :
    placeAll next (xs ++ ys) =
      placeAll (beginning next (Rose.leavesAll ys)) xs ++ placeAll next ys := by
  induction xs with
  | nil => rfl
  | cons t ts ih =>
    rw [List.cons_append, placeAll, placeAll, ih, Rose.leavesAll_append, beginning_append,
      List.cons_append]

theorem leaves_skeleton (t : Tree) : t.skeleton.leaves = t.leaves := by
  rw [skeleton, Rose.leaves_map, List.map_id]

theorem leavesAll_skeleton (ts : List Tree) :
    Rose.leavesAll (ts.map skeleton) = Rose.leavesAll ts := by
  induction ts with
  | nil => rfl
  | cons t ts ih => rw [List.map_cons, Rose.leavesAll, Rose.leavesAll, leaves_skeleton, ih]

/-- The nodes stand where their tokens say, if what is behind begins at `next`. -/
def Snug (next : Nat) (t : Tree) : Prop := place next t.skeleton = t

def SnugAll (next : Nat) (ts : List Tree) : Prop := placeAll next (ts.map skeleton) = ts

theorem snug_leaf (next : Nat) (token : Token) : Snug next (.leaf token) := by
  rw [Snug, skeleton, Rose.map_leaf, place, id]

theorem snug_node {next rule start stop : Nat} {ts : List Tree}
    (hstart : beginning next (Rose.leavesAll ts) = start)
    (hstop : ending next (Rose.leavesAll ts) = stop) (h : SnugAll next ts) :
    Snug next (.node ⟨rule, start, stop⟩ ts) := by
  rw [Snug, skeleton, Rose.map_node, place]
  change Rose.node ⟨rule, beginning next (Rose.leavesAll (ts.map skeleton)),
    ending next (Rose.leavesAll (ts.map skeleton))⟩ (placeAll next (ts.map skeleton)) = _
  rw [leavesAll_skeleton, h, hstart, hstop]

theorem snugAll_nil (next : Nat) : SnugAll next [] := rfl

theorem snugAll_append {next : Nat} {ts us : List Tree}
    (h : SnugAll (beginning next (Rose.leavesAll us)) ts) (h' : SnugAll next us) :
    SnugAll next (ts ++ us) := by
  rw [SnugAll, List.map_append, placeAll_append, leavesAll_skeleton, h, h']

theorem snugAll_cons {next : Nat} {t : Tree} {ts : List Tree}
    (h : Snug (beginning next (Rose.leavesAll ts)) t) (h' : SnugAll next ts) :
    SnugAll next (t :: ts) := by
  rw [SnugAll, List.map_cons, placeAll, leavesAll_skeleton, h, h']

end Tree

namespace Clojure

open Matching HiccupReader.Tree

theorem SpellsUpTo.beginning_eq {P : TokenKind → List Char → Prop} {c c' : Cursor}
    {ts : List Token} (h : SpellsUpTo P c ts c') :
    beginning (skipTrivia c').offset ts = (skipTrivia c).offset := by
  obtain ⟨stop, hspells, hc'⟩ := h
  have hskip : skipTrivia c' = skipTrivia stop := by
    rcases hc' with rfl | rfl
    · rfl
    · exact skipTrivia_skipTrivia stop
  rw [hskip]
  cases hspells <;> rfl

/-- Readings that spell their tokens out and whose trees are snug in front of what comes next. A
tree that ends with a token is snug in front of anything. -/
structure Seats (s : Symbol) (c : Cursor) (t : Tree) (c' : Cursor) : Prop where
  spelled : spelling s c t c'
  snug : Settled c → s.inner = true → Snug (skipTrivia c').offset t
  closed : Settled c → s.full = true → ∀ next, Snug next t

theorem Seats.upTo {s : Symbol} {c c' : Cursor} {t : Tree} (h : Seats s c t c') (hc : Settled c) :
    SpellsUpTo (fun _ _ => True) c t.leaves c' := (h.spelled hc).upTo

theorem Items.snugAll {options : List Symbol} {c c' : Cursor} {ts : List Tree}
    (hinner : ∀ s ∈ options, s.inner = true) (h : Items Seats options c ts c') :
    SnugAll (skipTrivia c').offset ts := by
  induction h with
  | done c => exact snugAll_nil _
  | item hs hread hrest ih =>
    refine snugAll_cons ?_ ih
    rw [(hrest.spells Seats.upTo).beginning_eq]
    exact hread.snug (settled_skipTrivia _) (hinner _ hs)

theorem Sequenced.snugAll {parts : List Part} {c c' : Cursor} {ts : List Tree}
    (hinner : ∀ part ∈ parts, ∀ s ∈ part.symbols, s.inner = true)
    (h : Sequenced Seats parts c ts c') : SnugAll (skipTrivia c').offset ts := by
  induction h with
  | done c => exact snugAll_nil _
  | one hread hrest ih =>
    obtain ⟨hs, hparts⟩ := List.forall_mem_cons.1 hinner
    refine snugAll_cons ?_ (ih hparts)
    rw [(hrest.spells Seats.upTo).beginning_eq]
    exact hread.snug (settled_skipTrivia _) (hs _ (List.mem_singleton_self _))
  | many hitems hrest ih =>
    obtain ⟨hs, hparts⟩ := List.forall_mem_cons.1 hinner
    refine snugAll_append ?_ (ih hparts)
    rw [(hrest.spells Seats.upTo).beginning_eq]
    exact hitems.snugAll hs
  | finish _ _ ih => exact ih (List.forall_mem_cons.1 hinner).2

theorem Produced.snugAll {r : Rule} {c c' : Cursor} {ts : List Tree} (hc : Settled c)
    (h : Produced Seats r.production c ts c') : SnugAll (skipTrivia c').offset ts := by
  have hinner := r.symbols_inner
  generalize r.production = p at h hinner
  cases h with
  | choice hs hread =>
    exact snugAll_cons (hread.snug hc (hinner _ hs)) (snugAll_nil _)
  | sequence hparts =>
    refine hparts.snugAll fun part hpart s hs => hinner s ?_
    exact List.mem_flatMap.2 ⟨part, hpart, hs⟩

theorem Produced.snugAll_of_closed {r : Rule} {c c' : Cursor} {ts : List Tree} (hc : Settled c)
    (hfull : (Symbol.rule r).full = true) (h : Produced Seats r.production c ts c') (next : Nat) :
    SnugAll next ts := by
  have hclosed := Rule.production_closed hfull
  have hinner := r.symbols_inner
  generalize r.production = p at h hclosed hinner
  cases h with
  | choice hs hread => exact snugAll_cons (hread.closed hc (hclosed _ hs) _) (snugAll_nil _)
  | sequence hparts =>
    obtain ⟨init, s, rfl, hs⟩ := hclosed
    obtain ⟨us, vs, d, rfl, hinit, hlast⟩ := hparts.append
    cases hlast with
    | @one _ _ _ _ _ t _ hread hdone =>
      cases hdone
      have hsettled := settled_skipTrivia d
      have hsymbols : ∀ part ∈ init, ∀ s ∈ part.symbols, s.inner = true := by
        intro part hpart s hs
        exact hinner s (List.mem_flatMap.2 ⟨part, List.mem_append_left _ hpart, hs⟩)
      have hspelled := hread.spelled hsettled
      have hplace : beginning next (Rose.leavesAll [t]) = (skipTrivia d).offset := by
        have hspells := hspelled.upTo.beginning_eq
        rw [skipTrivia_skipTrivia] at hspells
        rw [← hspells, Rose.leavesAll, Rose.leavesAll, List.append_nil]
        exact beginning_of_ne_nil (hspelled.ne_nil hs) _ _
      refine snugAll_append ?_ (snugAll_cons (hread.closed hsettled hs _) (snugAll_nil _))
      rw [hplace]
      exact hinit.snugAll hsymbols

theorem ending_eq {P : TokenKind → List Char → Prop} {c c' : Cursor} {ts : List Token}
    (h : Spells P c ts c') (hts : ts ≠ []) (next : Nat) : ending next ts = c'.offset := by
  have hlast := h.stop_eq
  rw [ending]
  cases hend : ts.getLast? with
  | none => exact absurd (List.getLast?_eq_none_iff.1 hend) hts
  | some last => exact (hlast last hend).symm

theorem seats_of_reading {s : Symbol} {c c' : Cursor} {t : Tree}
    (h : readingOf matchAt s c t c') : Seats s c t c' := by
  apply reading_of_matchAt (R := Seats) _ _ h
  · intro k c taken left hcut
    have hread : readingOf matchAt (.token k) c (.leaf (k.token c taken)) (c.advance taken left) :=
      readingOf_token_iff.2 ⟨taken, left, hcut, rfl, rfl⟩
    exact ⟨fun _ => spelled_of_reading hread ‹_›, fun _ _ => snug_leaf _ _,
      fun _ _ _ => snug_leaf _ _⟩
  · intro r c ts c' hparts
    have hspelled : Settled c → Spelled (.rule r) c (Rose.leavesAll ts) c' :=
      (hparts.mono Seats.spelled).spelled
    -- With a token the node stands where its tokens do, whatever comes next.
    have hplace : ∀ next, Settled c → (Symbol.rule r).inner = true → Rose.leavesAll ts ≠ [] →
        beginning next (Rose.leavesAll ts) = c.offset ∧
          ending next (Rose.leavesAll ts) = c'.offset := by
      intro next hc hinner hne
      have hspells := (hspelled hc).exactly hinner
      have hbegins := (hspelled hc).upTo.beginning_eq
      rw [hc] at hbegins
      exact ⟨(beginning_of_ne_nil hne _ _).trans hbegins, ending_eq hspells hne next⟩
    refine ⟨hspelled, fun hc hinner => ?_, fun hc hfull next => ?_⟩
    · by_cases hne : Rose.leavesAll ts = []
      · have hspells := (hspelled hc).exactly hinner
        rw [hne] at hspells
        cases hspells
        have hstart := congrArg Cursor.offset hc
        exact snug_node (by rw [hne]; exact hstart) (by rw [hne]; exact hstart) (hparts.snugAll hc)
      · obtain ⟨hstart, hstop⟩ := hplace _ hc hinner hne
        exact snug_node hstart hstop (hparts.snugAll hc)
    · have hinner := Symbol.inner_of_full hfull
      obtain ⟨hstart, hstop⟩ := hplace next hc hinner ((hspelled hc).ne_nil hfull)
      exact snug_node hstart hstop (hparts.snugAll_of_closed hc hfull next)

theorem map_place_skeleton {ts : List Tree} (h : ∀ t ∈ ts, ∀ next, Snug next t) :
    (ts.map skeleton).map (place 0) = ts := by
  rw [List.map_map]
  exact (List.map_congr_left fun t ht => h t ht 0).trans (List.map_id' ts)

theorem eq_of_snug {ts us : List Tree} (hts : ∀ t ∈ ts, ∀ next, Snug next t)
    (hus : ∀ u ∈ us, ∀ next, Snug next u) (hshapes : ts.map treeShape = us.map treeShape)
    (hleaves : Rose.leavesAll ts = Rose.leavesAll us) : ts = us := by
  have hshape : ∀ vs : List Tree, (Rose.node 0 (vs.map skeleton)).map id Token.rule =
      .node 0 (vs.map treeShape) := by
    intro vs
    rw [Rose.map_node, List.map_map]
    exact congrArg _ (List.map_congr_left fun v _ => Rose.map_map ..)
  have hskeletons : Rose.node 0 (ts.map skeleton) = .node 0 (us.map skeleton) := by
    apply Rose.eq_of_leaves (g := Token.rule)
    · rw [hshape, hshape, hshapes]
    · rw [Rose.leaves, Rose.leaves, leavesAll_skeleton, leavesAll_skeleton, hleaves]
  rw [← map_place_skeleton hts, (Rose.node.inj hskeletons).2, map_place_skeleton hus]

end Clojure
end HiccupReader
