import HiccupReader.Proofs.Clojure.Coverage
import HiccupReader.Proofs.Clojure.Spans
import HiccupReader.Proofs.Clojure.Derivation

/-! Every tree that is read is a derivation of the grammar: each node is an instance of the
production of its rule, and the spans of the nodes fit. -/

namespace HiccupReader.Clojure

open Matching

/-- The tree is, but for texts and spans, a derivation of the symbol. -/
def Derives (s : Symbol) (t : Tree) : Prop :=
  ∃ d : Derivation, d.Valid ∧ d.root = s ∧ treeShape t = d.shape

structure SameShapes (ts : List Tree) (ds : List Derivation) : Prop where
  valid : ∀ d ∈ ds, d.Valid
  shapes : ts.map treeShape = ds.map Derivation.shape

namespace SameShapes

theorem nil : SameShapes [] [] := ⟨by simp, rfl⟩

theorem cons {t : Tree} {d : Derivation} {ts : List Tree} {ds : List Derivation}
    (hd : d.Valid) (ht : treeShape t = d.shape) (h : SameShapes ts ds) :
    SameShapes (t :: ts) (d :: ds) :=
  ⟨List.forall_mem_cons.2 ⟨hd, h.valid⟩, by rw [List.map_cons, List.map_cons, ht, h.shapes]⟩

theorem append {ts us : List Tree} {ds es : List Derivation} (h : SameShapes ts ds)
    (h' : SameShapes us es) : SameShapes (ts ++ us) (ds ++ es) :=
  ⟨List.forall_mem_append.2 ⟨h.valid, h'.valid⟩,
    by rw [List.map_append, List.map_append, h.shapes, h'.shapes]⟩

end SameShapes

theorem Items.sameShapes {options : List Symbol} {c c' : Cursor} {ts : List Tree}
    (h : Items (fun s _ t _ => Derives s t) options c ts c') :
    ∃ ds, SameShapes ts ds ∧ ∀ s ∈ ds.map Derivation.root, s ∈ options := by
  induction h with
  | done c => exact ⟨[], .nil, by simp⟩
  | item hs hread _ ih =>
    obtain ⟨d, hvalid, rfl, hshape⟩ := hread
    obtain ⟨ds, hds, hroots⟩ := ih
    exact ⟨d :: ds, hds.cons hvalid hshape, List.forall_mem_cons.2 ⟨hs, hroots⟩⟩

theorem Sequenced.sameShapes {parts : List Part} {c c' : Cursor} {ts : List Tree}
    (h : Sequenced (fun s _ t _ => Derives s t) parts c ts c') :
    ∃ ds, SameShapes ts ds ∧ AllowsInOrder parts (ds.map Derivation.root) := by
  induction h with
  | done c => exact ⟨[], .nil, .nil⟩
  | @one s parts c c₁ c₂ t ts hread _ ih =>
    obtain ⟨d, hvalid, rfl, hshape⟩ := hread
    obtain ⟨ds, hds, hallows⟩ := ih
    have hpart : (Part.one d.root).Allows [d.root] := rfl
    exact ⟨d :: ds, hds.cons hvalid hshape, .cons hpart hallows⟩
  | many hitems _ ih =>
    obtain ⟨es, hes, hroots⟩ := hitems.sameShapes
    obtain ⟨ds, hds, hallows⟩ := ih
    refine ⟨es ++ ds, hes.append hds, ?_⟩
    rw [List.map_append]
    exact .cons hroots hallows
  | @finish parts c c' ts _ _ ih =>
    obtain ⟨ds, hds, hallows⟩ := ih
    have hpart : Part.finish.Allows [] := rfl
    exact ⟨ds, hds, .cons hpart hallows⟩

theorem derives_of_reading {s : Symbol} {c c' : Cursor} {t : Tree}
    (h : readingOf matchAt s c t c') : Derives s t := by
  apply reading_of_matchAt (R := fun s _ t _ => Derives s t) _ _ h
  · intro k c taken left _
    exact ⟨.leaf k, .token k, rfl, rfl⟩
  · intro r c ts c' hparts
    have hds : ∃ ds, SameShapes ts ds ∧ r.production.Allows (ds.map Derivation.root) := by
      generalize r.production = p at hparts
      cases hparts with
      | sequence hparts => exact hparts.sameShapes
      | choice hs hread =>
        obtain ⟨d, hvalid, rfl, hshape⟩ := hread
        exact ⟨[d], SameShapes.nil.cons hvalid hshape, d.root, hs, rfl⟩
    obtain ⟨ds, hds, hallows⟩ := hds
    refine ⟨.node r ds, .rule hallows hds.valid, rfl, ?_⟩
    rw [treeShape, Derivation.shape, Rose.map_node, Rose.map_node]
    exact congrArg _ hds.shapes

inductive Kinded : Tree → Prop
  | leaf {token : Token} : (ruleTable.get? token.rule).map RuleEntry.kind = some .token →
    Kinded (.leaf token)
  | node {found : RuleMatch} {ts : List Tree} :
    (ruleTable.get? found.rule).map RuleEntry.kind = some .parser → (∀ t ∈ ts, Kinded t) →
      Kinded (.node found ts)

theorem kinded_of_shape {t : Tree} {d : Derivation} (h : treeShape t = d.shape) : Kinded t := by
  induction t using Rose.tree_induction generalizing d with
  | leaf token =>
    cases d with
    | leaf k =>
      rw [treeShape, Derivation.shape, Rose.map_leaf, Rose.map_leaf] at h
      have hrule : token.rule = k.index := Rose.leaf.inj h
      exact .leaf (by rw [hrule, k.get?_index]; rfl)
    | node r ds => simp [treeShape, Derivation.shape] at h
  | node found ts ih =>
    cases d with
    | leaf k => simp [treeShape, Derivation.shape] at h
    | node r ds =>
      rw [treeShape, Derivation.shape, Rose.map_node, Rose.map_node] at h
      obtain ⟨hrule, hchildren⟩ := Rose.node.inj h
      refine .node (by rw [hrule, r.get?_index]; rfl) fun t ht => ?_
      have hmem : treeShape t ∈ ts.map treeShape := List.mem_map_of_mem ht
      have hshapes : ts.map treeShape = ds.map Derivation.shape := hchildren
      rw [hshapes] at hmem
      obtain ⟨d, -, hd⟩ := List.mem_map.1 hmem
      exact ih t ht hd.symm

/-- The tree of a text: a node for all of the text, over a derivation whose spans fit. -/
theorem parse_derives_code (text : String) (tree : Tree) (h : parse text = .ok tree) :
    Derives (.rule .code) tree ∧ Kinded tree ∧
      ∃ ts, tree = .node ⟨Rule.code.index, 0, text.utf8ByteSize⟩ ts ∧
        Nested ⟨0, text.utf8ByteSize⟩ (ts.map Tree.span) ∧ ∀ t ∈ ts, Spaced t := by
  obtain ⟨tokens, -, -, hderive⟩ := parse_eq_ok_iff.1 h
  obtain ⟨c, hread⟩ := derive_eq_ok_iff.1 hderive
  have hderives : Derives (.rule .code) tree := derives_of_reading hread
  have hkinded : Kinded tree := by
    obtain ⟨d, -, -, hshape⟩ := hderives
    exact kinded_of_shape hshape
  refine ⟨hderives, hkinded, ?_⟩
  have hreach := reaches_of_reading hread
  obtain ⟨ts, hparts, rfl⟩ := produced_of_reading hread
  cases hparts with
  | sequence hparts =>
    have hfinish : Sequenced (readingOf matchAt) ([.one (.rule .forms)] ++ [.finish]) _ ts c :=
      hparts
    have hend : c.rest = [] := hfinish.rest_eq_nil
    -- The root ends where nothing is left, and the end of the text never moves.
    have hsize : c.offset = text.utf8ByteSize := by
      have hlength := hreach.end_eq
      rw [hend] at hlength
      simpa [Cursor.start, Text.byteLength_toList] using hlength
    refine ⟨ts, by rw [hsize]; rfl, ?_, ?_⟩
    · rw [← hsize]
      exact hparts.nested fun hread => (fits_of_reading hread).placed
    · intro t ht
      obtain ⟨s, hs, d, d', hd, hread⟩ := hparts.forall_mem t ht
      exact (fits_of_reading hread).spaced hd (Rule.code.symbols_inner s hs)

theorem quoted_symbol_derives_code :
    ∃ tree, parse "'a ;b" = .ok tree ∧ Derives (.rule .code) tree ∧ Kinded tree ∧
      ∃ ts, tree = .node ⟨Rule.code.index, 0, "'a ;b".utf8ByteSize⟩ ts ∧
        Nested ⟨0, "'a ;b".utf8ByteSize⟩ (ts.map Tree.span) ∧ ∀ t ∈ ts, Spaced t := by
  obtain ⟨tree, hparse⟩ : ∃ tree, parse "'a ;b" = .ok tree := exists_eq_ok (by decide +kernel)
  exact ⟨tree, hparse, parse_derives_code "'a ;b" tree hparse⟩

end HiccupReader.Clojure
