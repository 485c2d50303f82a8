import HiccupReader.Proofs.Clojure.Pending

/-! How tokens may go on where something is pending. Whatever is read without a fault can be
finished, and together with what finishes it it is the tokens of a derivation. -/

namespace HiccupReader.Clojure

theorem exists_form_of_opener {r : Rule} {ds : List Derivation} (hr : Symbol.rule r ∈ openers)
    (hvalid : Derivation.Valid (.node r ds)) :
    ∃ d : Derivation, d.Valid ∧ d.root = .rule .form ∧ d.leaves = Rose.leavesAll ds := by
  have choice : ∀ {s : Rule} {options : List Symbol} {d : Derivation},
      s.production = .choice options → d.root ∈ options → d.Valid →
        Derivation.Valid (.node s [d]) := by
    intro s options d hs hroot hd
    refine .rule ?_ (List.forall_mem_singleton.2 hd)
    rw [hs]
    exact ⟨d.root, hroot, rfl⟩
  -- A form is a group of its openers over one of them.
  have grouped : ∀ {s : Rule} {options : List Symbol}, s.production = .choice options →
      Symbol.rule s ∈ [Symbol.rule .collection, .rule .readerMacro, .rule .literal] →
        Symbol.rule r ∈ options → ∃ d : Derivation, d.Valid ∧ d.root = .rule .form ∧
          d.leaves = Rose.leavesAll ds := by
    intro s options hs hgroup hmem
    have hinner : Derivation.Valid (.node s [.node r ds]) := choice hs hmem hvalid
    have hform : Derivation.Valid (.node .form [.node s [.node r ds]]) :=
      choice (s := .form) rfl hgroup hinner
    refine ⟨_, hform, rfl, ?_⟩
    simp only [Rose.leaves, Rose.leavesAll, List.append_nil]
  rw [openers, List.mem_append, List.mem_append] at hr
  rcases hr with (hr | hr) | hr
  · exact grouped (s := .collection) rfl (by decide) hr
  · exact grouped (s := .readerMacro) rfl (by decide) hr
  · exact grouped (s := .literal) rfl (by decide) hr

namespace Pending

def Forms (ds : List Derivation) : Prop := ∀ d ∈ ds, d.Valid ∧ d.root = .rule .form

theorem Forms.nil : Forms [] := fun d hd => by cases hd

theorem Forms.valid {ds : List Derivation} (h : Forms ds) : Derivation.Valid (.node .forms ds) := by
  have hroots : ∀ s ∈ ds.map Derivation.root, s ∈ [Symbol.rule .form] := by
    intro s hs
    obtain ⟨d, hd, rfl⟩ := List.mem_map.1 hs
    exact List.mem_singleton.2 (h d hd).2
  have hallows : AllowsInOrder [.many [.rule .form]] (ds.map Derivation.root ++ []) :=
    .cons hroots .nil
  rw [List.append_nil] at hallows
  exact .rule hallows fun d hd => (h d hd).1

inductive Finishes : List Pending → List TokenKind → Prop
  | done {ds : List Derivation} : Forms ds → Finishes [] (Rose.leavesAll ds)
  | closing {b : Bracket} {ds : List Derivation} {st : List Pending} {ks : List TokenKind} :
    Forms ds → Finishes (complete st) ks →
      Finishes (.closing b :: st) (Rose.leavesAll ds ++ b.closer :: ks)
  | forms {more : Nat} {ds : List Derivation} {st : List Pending} {ks : List TokenKind} :
    Forms ds → ds.length = more + 1 → Finishes (complete st) ks →
      Finishes (.forms more :: st) (Rose.leavesAll ds ++ ks)
  | map {d : Derivation} {st : List Pending} {ks : List TokenKind} : d.Valid →
    d.root = .rule .map → Finishes (complete st) ks → Finishes (.map :: st) (d.leaves ++ ks)

namespace Finishes

variable {st st' : List Pending} {k : TokenKind} {ks js : List TokenKind} {d : Derivation}

theorem form (hd : d.Valid ∧ d.root = .rule .form) (hst : Open st)
    (h : Finishes (complete st) ks) : Finishes st (d.leaves ++ ks) := by
  match st with
  | [] =>
    cases h with
    | @done ds hds =>
      have hmore : Forms (d :: ds) := List.forall_mem_cons.2 ⟨hd, hds⟩
      exact .done hmore
  | .closing b :: st =>
    cases h with
    | @closing _ ds _ ks hds hrest =>
      have hmore : Forms (d :: ds) := List.forall_mem_cons.2 ⟨hd, hds⟩
      rw [← List.append_assoc]
      exact .closing hmore hrest
  | .forms 0 :: st =>
    have hone : Forms [d] := List.forall_mem_singleton.2 hd
    have hfinish : Finishes (.forms 0 :: st) (Rose.leavesAll [d] ++ ks) := .forms hone rfl h
    rwa [Rose.leavesAll, Rose.leavesAll, List.append_nil] at hfinish
  | .forms (more + 1) :: st =>
    cases h with
    | @forms _ ds _ ks hds hlength hrest =>
      have hmore : Forms (d :: ds) := List.forall_mem_cons.2 ⟨hd, hds⟩
      rw [← List.append_assoc]
      exact .forms hmore (by rw [List.length_cons, hlength]) hrest
  | .map :: st => exact absurd rfl hst

theorem of_opener {r : Rule} {ds : List Derivation} (hr : Symbol.rule r ∈ openers)
    (hvalid : Derivation.Valid (.node r ds)) (hst : Open st) (h : Finishes (complete st) ks) :
    Finishes st (Rose.leavesAll ds ++ ks) := by
  obtain ⟨d, hd, hroot, hleaves⟩ := exists_form_of_opener hr hvalid
  rw [← hleaves]
  exact form ⟨hd, hroot⟩ hst h

theorem enclosed {r : Rule} {b : Bracket} (hr : Symbol.rule r ∈ openers)
    (hproduction : r.production = .enclosed k b.closer) (hmap : ¬ Open st → r = .map)
    (h : Finishes (.closing b :: st) ks) : Finishes st (k :: ks) := by
  cases h with
  | @closing _ ds _ ks hds hrest =>
    have hvalid : Derivation.Valid (.node r [.leaf k, .node .forms ds, .leaf b.closer]) := by
      refine .rule ?_ (by simp [hds.valid, Derivation.Valid.token])
      rw [hproduction]
      exact .ones [.token k, .rule .forms, .token b.closer]
    have hleaves : k :: (Rose.leavesAll ds ++ b.closer :: ks) =
        Rose.leavesAll [.leaf k, .node .forms ds, .leaf b.closer] ++ ks := by
      simp [Rose.leavesAll, Rose.leaves]
    rw [hleaves]
    by_cases hst : Open st
    · exact of_opener hr hvalid hst hrest
    · obtain rfl := hmap hst
      obtain ⟨rest, rfl⟩ := List.head?_eq_some_iff.1 (Classical.not_not.1 hst)
      exact .map hvalid rfl hrest

theorem awaiting {r : Rule} {more : Nat} (hr : Symbol.rule r ∈ openers)
    (hproduction : r.production =
      .sequence (.one (.token k) :: List.replicate (more + 1) (.one (.rule .form))))
    (hst : Open st) (h : Finishes (.forms more :: st) ks) : Finishes st (k :: ks) := by
  cases h with
  | @forms _ ds _ ks hds hlength hrest =>
    have hroots : ds.map Derivation.root = List.replicate (more + 1) (.rule .form) := by
      rw [List.eq_replicate_iff, List.length_map]
      refine ⟨hlength, fun s hs => ?_⟩
      obtain ⟨d, hd, rfl⟩ := List.mem_map.1 hs
      exact (hds d hd).2
    have hvalid : Derivation.Valid (.node r (.leaf k :: ds)) := by
      refine .rule ?_ (List.forall_mem_cons.2 ⟨.token k, fun d hd => (hds d hd).1⟩)
      have hones := AllowsInOrder.ones (.token k :: List.replicate (more + 1) (.rule .form))
      rw [List.map_cons, List.map_replicate] at hones
      rw [hproduction, List.map_cons, hroots]
      exact hones
    exact of_opener hr hvalid hst hrest

theorem mapPrefix (hst : Open st) (h : Finishes (.map :: st) ks) :
    Finishes st (.namespacedMapPrefix :: ks) := by
  cases h with
  | @map d _ ks hd hroot hrest =>
    have hvalid : Derivation.Valid (.node .namespacedMap [.leaf .namespacedMapPrefix, d]) := by
      refine .rule ?_ (by simp [hd, Derivation.Valid.token])
      rw [List.map_cons, List.map_singleton, hroot]
      exact .ones [.token .namespacedMapPrefix, .rule .map]
    have hfinish := of_opener (by decide) hvalid hst hrest
    simpa [Rose.leavesAll, Rose.leaves] using hfinish

theorem of_follow (hfollow : follow st k = some st') (h : Finishes st' ks) :
    Finishes st (k :: ks) := by
  by_cases hk : k ∈ closers
  · obtain ⟨b, hb⟩ := exists_bracket_of_closer hk
    have hst : Open st := open_of_follow hfollow (by rintro rfl; cases hb)
    rw [follow_closing hb hst, Option.ite_none_right_eq_some] at hfollow
    obtain ⟨hhead, htail⟩ := hfollow
    obtain ⟨rest, rfl⟩ := List.head?_eq_some_iff.1 hhead
    obtain rfl := Option.some.inj htail
    obtain rfl := eq_closer hb
    exact .closing .nil h
  · obtain ⟨r, parts, hr, hproduction, hopening, hunique⟩ := exists_opening hk
    cases hopening with
    | literal hrole =>
      have hst : Open st := open_of_follow hfollow (by rintro rfl; cases hrole)
      rw [follow_literal hrole hst] at hfollow
      obtain rfl := Option.some.inj hfollow
      have hvalid : Derivation.Valid (.node r [.leaf k]) := by
        refine .rule ?_ (List.forall_mem_singleton.2 (.token k))
        rw [hproduction]
        exact .ones [.token k]
      exact of_opener hr hvalid hst h
    | @enclosed j b hopen hclose =>
      obtain rfl := eq_closer hclose
      have hbrace : st.head? = some .map → k = .leftBrace := by
        intro hmap
        by_contra hne
        rw [follow_map hmap hne] at hfollow
        cases hfollow
      rw [follow_opening hopen hbrace] at hfollow
      obtain rfl := Option.some.inj hfollow
      refine enclosed hr hproduction (fun hst => ?_) h
      obtain rfl := hbrace (Classical.not_not.1 hst)
      exact (Symbol.rule.inj (hunique (.rule .map) (by decide) (by decide))).symm
    | awaiting hrole hplain hparts =>
      have hst : Open st := open_of_follow hfollow (by rintro rfl; cases hrole)
      rw [follow_mark hrole hplain hst] at hfollow
      obtain rfl := Option.some.inj hfollow
      rw [hparts] at hproduction
      exact awaiting hr hproduction hst h
    | mapPrefix hmap =>
      subst hmap
      have hst : Open st := open_of_follow hfollow nofun
      rw [follow_mapPrefix hst] at hfollow
      obtain rfl := Option.some.inj hfollow
      exact mapPrefix hst h

theorem of_run (hrun : run st js = some st') (h : Finishes st' ks) : Finishes st (js ++ ks) := by
  induction js generalizing st with
  | nil =>
    obtain rfl := Option.some.inj hrun
    exact h
  | cons k js ih =>
    obtain ⟨next, hfollow, hrest⟩ := Option.bind_eq_some_iff.1 hrun
    exact of_follow hfollow (ih hrest)

theorem exists_derivation (h : Finishes [] ks) :
    ∃ d : Derivation, d.Valid ∧ d.root = .rule .forms ∧ d.leaves = ks := by
  cases h with
  | @done ds hds => exact ⟨.node .forms ds, hds.valid, rfl, rfl⟩

end Finishes

def finishers : List TokenKind := [.symbol, .leftBrace] ++ closers

theorem forms_replicate (n : Nat) : Forms (List.replicate n symbolForm) := by
  intro d hd
  rw [(List.mem_replicate.1 hd).2]
  exact ⟨symbolForm_valid, rfl⟩

theorem leavesAll_replicate (n : Nat) :
    Rose.leavesAll (List.replicate n symbolForm) = List.replicate n .symbol := by
  induction n with
  | zero => rfl
  | succ n ih =>
    rw [List.replicate_succ, List.replicate_succ, Rose.leavesAll, ih]
    rfl

def emptyMap : Derivation := .node .map [.leaf .leftBrace, .node .forms [], .leaf .rightBrace]

theorem emptyMap_valid : emptyMap.Valid := by
  refine .rule (.ones [.token .leftBrace, .rule .forms, .token .rightBrace]) ?_
  simp [Forms.nil.valid, Derivation.Valid.token]

theorem exists_finish (st : List Pending) : ∃ ks, Finishes st ks ∧ (∀ k ∈ ks, k ∈ finishers) ∧
    (∀ more, st.head? = some (.forms more) → ks.head? = some .symbol) := by
  generalize hn : st.length = n
  induction n using Nat.strongRecOn generalizing st with
  | ind n ih =>
    have below : ∀ p rest, st = p :: rest → ∃ ks, Finishes (complete rest) ks ∧
        ∀ k ∈ ks, k ∈ finishers := by
      rintro p rest rfl
      have hle := length_complete_le rest
      rw [List.length_cons] at hn
      obtain ⟨ks, hks, hmem, -⟩ := ih (complete rest).length (by omega) (complete rest) rfl
      exact ⟨ks, hks, hmem⟩
    match st with
    | [] => exact ⟨[], .done .nil, by simp, by simp⟩
    | .closing b :: rest =>
      obtain ⟨ks, hks, hmem⟩ := below _ rest rfl
      have hcloser : b.closer ∈ finishers := by cases b <;> decide
      exact ⟨_, .closing .nil hks, List.forall_mem_cons.2 ⟨hcloser, hmem⟩, by simp⟩
    | .forms more :: rest =>
      obtain ⟨ks, hks, hmem⟩ := below _ rest rfl
      have hfinish : Finishes (.forms more :: rest) _ :=
        .forms (forms_replicate (more + 1)) (List.length_replicate ..) hks
      rw [leavesAll_replicate] at hfinish
      refine ⟨_, hfinish, ?_, fun _ _ => rfl⟩
      refine List.forall_mem_append.2 ⟨fun k hk => ?_, hmem⟩
      rw [(List.mem_replicate.1 hk).2]
      decide
    | .map :: rest =>
      obtain ⟨ks, hks, hmem⟩ := below _ rest rfl
      refine ⟨_, .map emptyMap_valid rfl hks, ?_, by simp⟩
      exact List.forall_mem_append.2 ⟨by decide, hmem⟩

end Pending
end HiccupReader.Clojure
