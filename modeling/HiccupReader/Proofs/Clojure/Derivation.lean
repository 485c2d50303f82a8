import HiccupReader.Clojure.Grammar
import HiccupReader.Proofs.Rose
import HiccupReader.Tree

/-! The Clojure grammar as a context-free grammar over token kinds. Here a choice may take any of
its options and a repetition may stop anywhere: a derivation is a tree whose nodes are instances
of productions. -/

namespace HiccupReader.Clojure

def Part.Allows : Part → List Symbol → Prop
  | .one s, ss => ss = [s]
  | .many options, ss => ∀ s ∈ ss, s ∈ options
  | .finish, ss => ss = []

inductive AllowsInOrder : List Part → List Symbol → Prop
  | nil : AllowsInOrder [] []
  | cons {part : Part} {parts : List Part} {ss us : List Symbol} : part.Allows ss →
    AllowsInOrder parts us → AllowsInOrder (part :: parts) (ss ++ us)

def Production.Allows : Production → List Symbol → Prop
  | .sequence parts, ss => AllowsInOrder parts ss
  | .choice options, ss => ∃ s ∈ options, ss = [s]

abbrev Derivation := Rose Rule TokenKind

namespace Derivation

def root : Derivation → Symbol
  | .leaf k => .token k
  | .node r _ => .rule r

inductive Valid : Derivation → Prop
  | token (k : TokenKind) : Valid (.leaf k)
  | rule {r : Rule} {ds : List Derivation} : r.production.Allows (ds.map root) →
    (∀ d ∈ ds, Valid d) → Valid (.node r ds)

def shape (d : Derivation) : Rose Nat Nat := d.map Rule.index TokenKind.index

end Derivation

def treeShape (t : Tree) : Rose Nat Nat := t.map RuleMatch.rule Token.rule

theorem map_rule_leaves {t : Tree} {d : Derivation} (h : treeShape t = d.shape) :
    t.leaves.map Token.rule = d.leaves.map TokenKind.index := by
  rw [← Rose.leaves_map RuleMatch.rule, ← Rose.leaves_map Rule.index]
  exact congrArg Rose.leaves h

theorem Rule.index_injective (r s : Rule) (h : r.index = s.index) : r = s := by
  have hget : ∀ r : Rule, Rule.all[r.index]? = some r := by
    intro r
    cases r <;> rfl
  rw [← Option.some.injEq, ← hget, ← hget, h]

theorem TokenKind.index_injective (j k : TokenKind) (h : j.index = k.index) : j = k := by
  rw [← Option.some.injEq, ← ofIndex?_index, ← ofIndex?_index, h]

theorem Derivation.shape_injective (d e : Derivation) (h : d.shape = e.shape) : d = e :=
  Rose.map_injective Rule.index_injective TokenKind.index_injective d e h

theorem AllowsInOrder.cons_one {s : Symbol} {parts : List Part} {ss : List Symbol}
    (h : AllowsInOrder (.one s :: parts) ss) : ∃ us, ss = s :: us ∧ AllowsInOrder parts us := by
  generalize hp : Part.one s :: parts = all at h
  cases h with
  | nil => cases hp
  | cons hpart hrest =>
    obtain ⟨rfl, rfl⟩ := List.cons.inj hp
    cases hpart
    exact ⟨_, rfl, hrest⟩

theorem AllowsInOrder.of_ones {ss us : List Symbol} (h : AllowsInOrder (ss.map .one) us) :
    us = ss := by
  induction ss generalizing us with
  | nil =>
    cases h
    rfl
  | cons s ss ih =>
    obtain ⟨vs, rfl, hrest⟩ := h.cons_one
    rw [ih hrest]

theorem AllowsInOrder.ones (ss : List Symbol) : AllowsInOrder (ss.map .one) ss := by
  induction ss with
  | nil => exact .nil
  | cons s ss ih =>
    have hpart : (Part.one s).Allows [s] := rfl
    exact .cons hpart ih

theorem AllowsInOrder.of_single {part : Part} {ss : List Symbol} (h : AllowsInOrder [part] ss) :
    part.Allows ss := by
  generalize hparts : [part] = parts at h
  cases h with
  | nil => cases hparts
  | cons hpart hrest =>
    obtain ⟨rfl, rfl⟩ := List.cons.inj hparts
    cases hrest
    rwa [List.append_nil]

theorem Derivation.eq_leaf_of_root {d : Derivation} {k : TokenKind} (h : d.root = .token k) :
    d = .leaf k := by
  cases d with
  | leaf j =>
    cases h
    rfl
  | node r ds => cases h

def Rule.nests : Rule → Bool
  | list | vector | map | set | fnLiteral | readerConditional | namespacedMap | quote | backtick
  | unquoteSplicing | unquote | deref | metadata | varQuote | discard | taggedLiteral => true
  | _ => false

namespace Derivation

mutual

def nesting : Derivation → Nat
  | .leaf _ => 0
  | .node r ds => (if r.nests then 1 else 0) + nestingAll ds

def nestingAll : List Derivation → Nat
  | [] => 0
  | d :: ds => max (nesting d) (nestingAll ds)

end

end Derivation
end HiccupReader.Clojure
