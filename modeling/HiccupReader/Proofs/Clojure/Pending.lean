import HiccupReader.Proofs.Clojure.Delimiters

/-! Reading the kinds of tokens with a stack of what is pending: delimiters to close, forms that
reader macros await, and the map behind the prefix of a namespaced map. The tokens of a derivation
are read to its end. -/

namespace HiccupReader.Clojure

theorem exists_bracket_of_closer {k : TokenKind} (h : k ∈ closers) :
    ∃ b : Bracket, k.delimiter? = some (.closing b) := by
  have brackets : ∀ j ∈ closers, ∃ b ∈ [Bracket.round, .square, .curly],
      j.delimiter? = some (.closing b) := by
    decide
  obtain ⟨b, -, hb⟩ := brackets k h
  exact ⟨b, hb⟩

def Bracket.closer : Bracket → TokenKind
  | round => .rightParen
  | square => .rightBracket
  | curly => .rightBrace

theorem eq_closer {k : TokenKind} {b : Bracket} (h : k.delimiter? = some (.closing b)) :
    k = b.closer := by
  cases k <;> cases h <;> rfl

/-- The forms that are awaited are one, and more behind it. -/
inductive Pending
  | forms (more : Nat)
  | map
  | closing (b : Bracket)
  deriving DecidableEq

namespace Pending

def complete : List Pending → List Pending
  | .forms (more + 1) :: st => .forms more :: st
  | .forms 0 :: st => complete st
  | .map :: st => complete st
  | st => st

def follow (st : List Pending) (k : TokenKind) : Option (List Pending) :=
  if st.head? = some .map ∧ k ≠ .leftBrace then none
  else
    match k.delimiter?, Nesting.role k with
    | some (.opening b), _ => some (.closing b :: st)
    | some (.closing b), _ => if st.head? = some (.closing b) then some (complete st.tail) else none
    | none, .awaits count =>
      if k = .namespacedMapPrefix then some (.map :: st) else some (.forms (count - 1) :: st)
    | none, _ => some (complete st)

def run (st : List Pending) : List TokenKind → Option (List Pending)
  | [] => some st
  | k :: ks => (follow st k).bind fun st => run st ks

def Open (st : List Pending) : Prop := st.head? ≠ some .map

section

variable {st st' : List Pending} {k : TokenKind} {b : Bracket} {ks js : List TokenKind}

theorem run_append (st : List Pending) (ks js : List TokenKind) :
    run st (ks ++ js) = (run st ks).bind fun st => run st js := by
  induction ks generalizing st with
  | nil => rfl
  | cons k ks ih =>
    rw [List.cons_append, run, run, Option.bind_assoc]
    simp only [ih]

theorem run_single (st : List Pending) (k : TokenKind) : run st [k] = follow st k := by
  rw [run]
  exact Option.bind_fun_some _

theorem run_append_of_run (h : run st ks = some st') : run st (ks ++ js) = run st' js := by
  rw [run_append, h, Option.bind_some]

theorem run_cons_of_follow (h : follow st k = some st') : run st (k :: ks) = run st' ks := by
  rw [run, h, Option.bind_some]

theorem follow_map (h : st.head? = some .map) (hk : k ≠ .leftBrace) : follow st k = none :=
  if_pos ⟨h, hk⟩

theorem open_of_follow (h : follow st k = some st') (hk : k ≠ .leftBrace) : Open st := by
  intro hmap
  rw [follow_map hmap hk] at h
  cases h

theorem follow_opening (hk : k.delimiter? = some (.opening b))
    (hst : st.head? = some .map → k = .leftBrace) : follow st k = some (.closing b :: st) := by
  rw [follow, if_neg fun h => h.2 (hst h.1), hk]

theorem follow_closing (hk : k.delimiter? = some (.closing b)) (hst : Open st) :
    follow st k = if st.head? = some (.closing b) then some (complete st.tail) else none := by
  rw [follow, if_neg fun h => hst h.1, hk]

theorem follow_mapPrefix (hst : Open st) :
    follow st .namespacedMapPrefix = some (.map :: st) := by
  rw [follow, if_neg fun h => hst h.1]
  rfl

theorem follow_mark {more : Nat} (hk : Nesting.role k = .awaits (more + 1))
    (hplain : k ≠ .namespacedMapPrefix) (hst : Open st) :
    follow st k = some (.forms more :: st) := by
  rw [follow, if_neg fun h => hst h.1, delimiter?_of_awaits hk, hk]
  exact if_neg hplain

theorem follow_awaits {more : Nat} (h : follow st k = some st')
    (hk : Nesting.role k = .awaits (more + 1)) (hplain : k ≠ .namespacedMapPrefix) :
    st' = .forms more :: st := by
  have hst : Open st := open_of_follow h (by rintro rfl; cases hk)
  exact Option.some.inj (h.symm.trans (follow_mark hk hplain hst))

theorem follow_literal (hk : Nesting.role k = .completes) (hst : Open st) :
    follow st k = some (complete st) := by
  rw [follow, if_neg fun h => hst h.1, delimiter?_of_completes hk, hk]

theorem open_complete (st : List Pending) : Open (complete st) := by
  fun_induction complete st with
  | case1 => exact fun h => by cases h
  | case2 st ih | case3 st ih => exact ih
  | case4 st _ _ hmap =>
    intro h
    obtain ⟨rest, rfl⟩ := List.head?_eq_some_iff.1 h
    exact hmap rest rfl

theorem length_complete_le (st : List Pending) : (complete st).length ≤ st.length := by
  fun_induction complete st with
  | case1 | case4 => exact Nat.le_refl _
  | case2 st ih | case3 st ih => exact Nat.le_succ_of_le ih

theorem follow_eq_none (h : follow st k = none) :
    k ∈ closers ∨ st.head? = some .map ∧ k ≠ .leftBrace := by
  rw [follow] at h
  split at h
  · next hmap => exact .inr hmap
  · left
    split at h
    · cases h
    · next b hb =>
      rw [eq_closer hb]
      cases b <;> decide
    · split at h <;> cases h
    · cases h

theorem eq_mapPrefix_of_follow (h : follow st k = some st') (hmap : st'.head? = some .map) :
    k = .namespacedMapPrefix := by
  rw [follow] at h
  split at h
  · cases h
  · split at h
    · obtain rfl := Option.some.inj h
      cases hmap
    · split at h
      · obtain rfl := Option.some.inj h
        exact absurd hmap (open_complete _)
      · cases h
    · split at h
      · assumption
      · obtain rfl := Option.some.inj h
        cases hmap
    · obtain rfl := Option.some.inj h
      exact absurd hmap (open_complete _)

end

/-- Read from any place where it may stand, the derivation is one form, or a run of forms where they
complete nothing. -/
def Consumed (d : Derivation) : Prop :=
  ∀ st, (¬ Open st → d.root = .rule .map) → (d.root = .rule .forms → complete st = st) →
    run st d.leaves = some (complete st)

theorem consumed_single {k : TokenKind} (hk : Nesting.role k = .completes) {r : Rule}
    (hr : r ≠ .map) : Consumed (.node r [.leaf k]) := by
  intro st hst _
  have hopen : Open st := by
    by_contra h
    exact hr (Symbol.rule.inj (hst h))
  have hleaves : Rose.leaves (Rose.node r [Rose.leaf k]) = [k] := rfl
  rw [hleaves, run_single]
  exact follow_literal hk hopen

theorem consumed_choice {r : Rule} {d : Derivation} (hr : r ≠ .map)
    (hforms : d.root ≠ .rule .forms) (h : Consumed d) : Consumed (.node r [d]) := by
  intro st hst _
  rw [Rose.leaves, Rose.leavesAll, Rose.leavesAll, List.append_nil]
  exact h st (fun hopen => absurd (Symbol.rule.inj (hst hopen)) hr) fun hroot => absurd hroot hforms

theorem consumed_enclosed {j k : TokenKind} {b : Bracket} (hj : j.delimiter? = some (.opening b))
    (hk : k.delimiter? = some (.closing b)) {r : Rule} (hr : r = .map → j = .leftBrace)
    {d : Derivation} (h : Consumed d) : Consumed (.node r [.leaf j, d, .leaf k]) := by
  intro st hst _
  have hopening : follow st j = some (.closing b :: st) :=
    follow_opening hj fun hmap => hr (Symbol.rule.inj (hst fun hopen => hopen hmap))
  have hinside : run (.closing b :: st) d.leaves = some (.closing b :: st) :=
    h (.closing b :: st) (fun hopen => absurd (fun hmap => by cases hmap) hopen) fun _ => rfl
  have hclosing : run (.closing b :: st) [k] = some (complete st) := by
    rw [run_single, follow_closing hk fun hmap => by cases hmap]
    exact if_pos rfl
  have hleaves : Rose.leaves (Rose.node r [Rose.leaf j, d, Rose.leaf k]) =
      j :: (d.leaves ++ [k]) := by
    simp [Rose.leaves, Rose.leavesAll]
  rw [hleaves, run_cons_of_follow hopening, run_append_of_run hinside, hclosing]

theorem run_awaited {d : Derivation} {ds : List Derivation}
    (hds : ∀ e ∈ d :: ds, e.root ≠ .rule .forms ∧ Consumed e) (st : List Pending) :
    run (.forms ds.length :: st) (Rose.leavesAll (d :: ds)) = some (complete st) := by
  induction ds generalizing d with
  | nil =>
    obtain ⟨hroot, hd⟩ := hds d (List.mem_singleton_self d)
    rw [Rose.leavesAll, Rose.leavesAll, List.append_nil]
    exact hd (.forms 0 :: st) (fun hopen => absurd (fun hmap => by cases hmap) hopen)
      fun hforms => absurd hforms hroot
  | cons e ds ih =>
    obtain ⟨⟨hroot, hd⟩, hrest⟩ := List.forall_mem_cons.1 hds
    have hfirst := hd (.forms (ds.length + 1) :: st)
      (fun hopen => absurd (fun hmap => by cases hmap) hopen) fun hforms => absurd hforms hroot
    rw [Rose.leavesAll, List.length_cons, run_append_of_run hfirst]
    exact ih hrest

theorem consumed_awaiting {k : TokenKind} {d : Derivation} {ds : List Derivation}
    (hk : Nesting.role k = .awaits (ds.length + 1)) (hplain : k ≠ .namespacedMapPrefix) {r : Rule}
    (hr : r ≠ .map) (hds : ∀ e ∈ d :: ds, e.root ≠ .rule .forms ∧ Consumed e) :
    Consumed (.node r (.leaf k :: d :: ds)) := by
  intro st hst _
  have hopen : Open st := by
    by_contra h
    exact hr (Symbol.rule.inj (hst h))
  have hleaves : Rose.leaves (Rose.node r (Rose.leaf k :: d :: ds)) =
      k :: Rose.leavesAll (d :: ds) := rfl
  rw [hleaves, run_cons_of_follow (follow_mark hk hplain hopen)]
  exact run_awaited hds st

theorem consumed_namespacedMap {d : Derivation} (hroot : d.root = .rule .map) (h : Consumed d) :
    Consumed (.node .namespacedMap [.leaf .namespacedMapPrefix, d]) := by
  intro st hst _
  have hopen : Open st := by
    by_contra h
    cases hst h
  have hleaves : Rose.leaves (Rose.node Rule.namespacedMap
      [Rose.leaf TokenKind.namespacedMapPrefix, d]) = .namespacedMapPrefix :: d.leaves := by
    simp [Rose.leaves, Rose.leavesAll]
  rw [hleaves, run_cons_of_follow (follow_mapPrefix hopen)]
  exact h (.map :: st) (fun _ => hroot) fun hforms => by rw [hroot] at hforms; cases hforms

theorem consumed_forms {ds : List Derivation}
    (hds : ∀ d ∈ ds, d.root = .rule .form ∧ Consumed d) : Consumed (.node .forms ds) := by
  intro st hst hforms
  have hidle : complete st = st := hforms rfl
  have hopen : Open st := by
    rw [← hidle]
    exact open_complete st
  clear hst hforms
  rw [Rose.leaves, hidle]
  induction ds with
  | nil => rfl
  | cons d ds ih =>
    obtain ⟨⟨hroot, hd⟩, hrest⟩ := List.forall_mem_cons.1 hds
    have hfirst := hd st (fun h => absurd hopen h) fun hforms => by rw [hroot] at hforms; cases hforms
    rw [hidle] at hfirst
    rw [Rose.leavesAll, run_append_of_run hfirst]
    exact ih hrest

theorem consumed_of_formed {d : Derivation} (h : Nesting.Formed d) : Consumed d := by
  induction h with
  | @choice r _ _ hr hroot _ ih =>
    have hmap : r ≠ .map := by
      rintro rfl
      cases hr
    exact consumed_choice hmap hroot ih
  | @single r _ hr hk =>
    have hmap : r ≠ .map := by
      rintro rfl
      cases hr
    exact consumed_single hk hmap
  | @enclosed r j _ _ hr _ _ _ _ ih =>
    have hmap : r = .map → j = .leftBrace := by
      rintro rfl
      cases hr
      rfl
    obtain ⟨b, hopening, hclosing⟩ := exists_bracket_of_enclosed hr
    exact consumed_enclosed hopening hclosing hmap ih
  | @awaiting r k ds hr hk hne _ hroots _ ih =>
    have hfirst : r.production.firsts = [.token k] := by rw [hr]; rfl
    have hmap : r ≠ .map := by
      rintro rfl
      obtain rfl := Symbol.token.inj (List.singleton_inj.1 hfirst)
      cases hk
    by_cases hplain : k = .namespacedMapPrefix
    · subst hplain
      obtain rfl : r = .namespacedMap := by
        cases r <;> first | rfl | cases hfirst
      obtain ⟨-, hparts⟩ := List.cons.inj (Production.sequence.inj hr)
      obtain ⟨s, hs, hone⟩ := List.map_eq_singleton_iff.1 hparts.symm
      obtain ⟨d, rfl, rfl⟩ := List.map_eq_singleton_iff.1 hs
      exact consumed_namespacedMap (Part.one.inj hone) (ih d (List.mem_singleton_self d))
    · obtain ⟨d, ds, rfl⟩ := List.exists_cons_of_ne_nil hne
      exact consumed_awaiting hk hplain hmap fun e he => ⟨hroots e he, ih e he⟩
  | forms hroots _ ih => exact consumed_forms fun d hd => ⟨hroots d hd, ih d hd⟩

theorem run_of_valid {d : Derivation} (h : d.Valid) (hroot : d.root = .rule .forms) :
    run [] d.leaves = some [] :=
  consumed_of_formed (Nesting.formed_of_valid h (by rw [hroot]; rfl)) []
    (fun hopen => absurd (fun hmap => by cases hmap) hopen) fun _ => rfl

end Pending

inductive Opening (k : TokenKind) : List Part → Prop
  | literal : Nesting.role k = .completes → Opening k []
  | enclosed {j : TokenKind} {b : Bracket} : k.delimiter? = some (.opening b) →
    j.delimiter? = some (.closing b) →
    Opening k [.one (.rule .forms), .one (.token j)]
  | awaiting {n : Nat} {parts : List Part} : Nesting.role k = .awaits (n + 1) →
    k ≠ .namespacedMapPrefix → parts = List.replicate (n + 1) (.one (.rule .form)) →
    Opening k parts
  | mapPrefix : k = .namespacedMapPrefix → Opening k [.one (.rule .map)]

theorem exists_opening {k : TokenKind} (hk : k ∉ closers) :
    ∃ r parts, Symbol.rule r ∈ openers ∧ r.production = .sequence (.one (.token k) :: parts) ∧
      Opening k parts ∧ ∀ x ∈ openers, k ∈ x.leads → x = .rule r := by
  cases k with
  | rightParen | rightBracket | rightBrace => exact absurd (by decide) hk
  | number => exact ⟨.number, _, by decide, rfl, .literal rfl, by decide⟩
  | character => exact ⟨.character, _, by decide, rfl, .literal rfl, by decide⟩
  | nil => exact ⟨.nil, _, by decide, rfl, .literal rfl, by decide⟩
  | boolean => exact ⟨.boolean, _, by decide, rfl, .literal rfl, by decide⟩
  | keyword => exact ⟨.keyword, _, by decide, rfl, .literal rfl, by decide⟩
  | string => exact ⟨.string, _, by decide, rfl, .literal rfl, by decide⟩
  | regex => exact ⟨.regex, _, by decide, rfl, .literal rfl, by decide⟩
  | symbolicValue => exact ⟨.symbolicValue, _, by decide, rfl, .literal rfl, by decide⟩
  | symbol => exact ⟨.symbol, _, by decide, rfl, .literal rfl, by decide⟩
  | leftParen => exact ⟨.list, _, by decide, rfl, .enclosed rfl rfl, by decide⟩
  | leftBracket => exact ⟨.vector, _, by decide, rfl, .enclosed rfl rfl, by decide⟩
  | leftBrace => exact ⟨.map, _, by decide, rfl, .enclosed rfl rfl, by decide⟩
  | hashBrace => exact ⟨.set, _, by decide, rfl, .enclosed rfl rfl, by decide⟩
  | hashParen => exact ⟨.fnLiteral, _, by decide, rfl, .enclosed rfl rfl, by decide⟩
  | readerConditional =>
    exact ⟨.readerConditional, _, by decide, rfl, .enclosed rfl rfl, by decide⟩
  | namespacedMapPrefix => exact ⟨.namespacedMap, _, by decide, rfl, .mapPrefix rfl, by decide⟩
  | caret => exact ⟨.metadata, _, by decide, rfl, .awaiting rfl nofun rfl, by decide⟩
  | quote => exact ⟨.quote, _, by decide, rfl, .awaiting rfl nofun rfl, by decide⟩
  | backtick => exact ⟨.backtick, _, by decide, rfl, .awaiting rfl nofun rfl, by decide⟩
  | unquoteSplicing =>
    exact ⟨.unquoteSplicing, _, by decide, rfl, .awaiting rfl nofun rfl, by decide⟩
  | unquote => exact ⟨.unquote, _, by decide, rfl, .awaiting rfl nofun rfl, by decide⟩
  | deref => exact ⟨.deref, _, by decide, rfl, .awaiting rfl nofun rfl, by decide⟩
  | varQuote => exact ⟨.varQuote, _, by decide, rfl, .awaiting rfl nofun rfl, by decide⟩
  | discard => exact ⟨.discard, _, by decide, rfl, .awaiting rfl nofun rfl, by decide⟩
  | tag => exact ⟨.taggedLiteral, _, by decide, rfl, .awaiting rfl nofun rfl, by decide⟩

theorem exists_opening_of_opener {x : Symbol} (hx : x ∈ openers) :
    ∃ r k parts, x = .rule r ∧ r.production = .sequence (.one (.token k) :: parts) ∧
      k ∈ x.leads ∧ k ∉ closers ∧ Opening k parts := by
  obtain ⟨r, k, parts, rfl, hr, hleads, -⟩ := openers_production hx
  have hlead : k ∈ (Symbol.rule r).leads := by
    rw [hleads]
    exact List.mem_singleton_self k
  have avoid : ∀ x ∈ openers, ∀ j ∈ x.leads, j ∉ closers := by decide
  have hk : k ∉ closers := avoid _ hx k hlead
  obtain ⟨s, parts', -, hs, hopening, honly⟩ := exists_opening hk
  obtain rfl := Symbol.rule.inj (honly _ hx hlead)
  obtain ⟨-, rfl⟩ := List.cons.inj (Production.sequence.inj (hr.symm.trans hs))
  exact ⟨r, k, parts, rfl, hr, hlead, hk, hopening⟩

end HiccupReader.Clojure
