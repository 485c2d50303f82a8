import HiccupReader.Proofs.Clojure.Continuing
import HiccupReader.Proofs.Clojure.Levels

/-! What is left open behind tokens that fit one after the other. The delimiters that the lexer
finds there leave just the brackets open that are pending, and its count of the levels has one for
each thing that is pending, and more of them only behind a discard mark that is read again. -/

namespace HiccupReader.Clojure

open Matching

def Unclosed (word : List Delimiter) : Prop :=
  ∃ front b back, word = front ++ .opening b :: back ∧
    ∀ inner rest, Balanced inner → back ≠ inner ++ .closing b :: rest

def Innermost (b : Bracket) (word : List Delimiter) : Prop :=
  ∃ front back, word = front ++ .opening b :: back ∧ Balanced back

inductive Leaving : List Bracket → List Delimiter → Prop
  | none {word : List Delimiter} : Balanced word → Leaving [] word
  | opening {b : Bracket} {stack : List Bracket} {front back : List Delimiter} :
    Leaving stack front → Balanced back → Leaving (b :: stack) (front ++ .opening b :: back)

variable {b c : Bracket} {stack : List Bracket} {word more : List Delimiter}

theorem exists_closesAll_of_append {front : List Delimiter}
    (h : closesAll stack (front ++ word) = true) : ∃ stack', closesAll stack' word = true := by
  induction front generalizing stack with
  | nil => exact ⟨stack, h⟩
  | cons delimiter front ih =>
    cases delimiter with
    | opening b =>
      rw [List.cons_append, closesAll] at h
      exact ih h
    | closing c =>
      cases stack with
      | nil => cases h
      | cons b stack =>
        rw [List.cons_append, closesAll, Bool.and_eq_true] at h
        exact ih h.2

theorem Balanced.not_unclosed (h : Balanced word) : ¬ Unclosed word := by
  rintro ⟨front, b, back, rfl, hopen⟩
  obtain ⟨stack, hcloses⟩ := exists_closesAll_of_append (balanced_iff.1 h)
  rw [closesAll] at hcloses
  cases unwinds_of_closesAll hcloses with
  | closing hinner _ => exact hopen _ _ hinner rfl

theorem Balanced.ne_append_closing (h : Balanced word) {inner rest : List Delimiter}
    (hinner : Balanced inner) : word ≠ inner ++ .closing b :: rest := by
  rintro rfl
  have hcloses := balanced_iff.1 h
  rw [hinner.closesAll_append] at hcloses
  cases hcloses

namespace Innermost

theorem unclosed (h : Innermost b word) : Unclosed word := by
  obtain ⟨front, back, rfl, hback⟩ := h
  exact ⟨front, b, back, rfl, fun _ _ hinner => hback.ne_append_closing hinner⟩

theorem unique (h : Innermost b word) (h' : Innermost c word) : b = c := by
  have behind : ∀ {b c : Bracket} {front front' back back' : List Delimiter},
      Balanced back → Balanced back' → ∀ mid, front' = front ++ mid →
      .opening b :: back = mid ++ .opening c :: back' → b = c := by
    intro b c front front' back back' hback hback' mid _ hmid
    cases mid with
    | nil => exact Delimiter.opening.inj (List.cons.inj hmid).1
    | cons delimiter mid =>
      obtain ⟨-, rfl⟩ := List.cons.inj hmid
      -- A delimiter that is open within a balanced word is closed in it.
      exact absurd (unclosed ⟨mid, back', rfl, hback'⟩) hback.not_unclosed
  obtain ⟨front, back, rfl, hback⟩ := h
  obtain ⟨front', back', hword, hback'⟩ := h'
  rcases List.append_eq_append_iff.1 hword with ⟨mid, hfront, hmid⟩ | ⟨mid, hfront, hmid⟩
  · exact behind hback hback' mid hfront hmid
  · exact (behind hback' hback mid hfront hmid).symm

end Innermost

namespace Leaving

theorem append (h : Leaving stack word) (hmore : Balanced more) : Leaving stack (word ++ more) := by
  cases h with
  | none hword => exact .none (hword.append hmore)
  | opening hfront hback =>
    rw [List.append_assoc]
    exact .opening hfront (hback.append hmore)

theorem openBracket (h : Leaving stack word) (b : Bracket) :
    Leaving (b :: stack) (word ++ [.opening b]) := .opening h .nil

theorem closeBracket (h : Leaving (b :: stack) word) : Leaving stack (word ++ [.closing b]) := by
  cases h with
  | @opening _ _ front back hfront hback =>
    rw [List.append_assoc]
    exact hfront.append (.enclosed b hback .nil)

theorem innermost (h : Leaving (b :: stack) word) : Innermost b word := by
  cases h with
  | opening hfront hback => exact ⟨_, _, rfl, hback⟩

theorem unclosed_iff (h : Leaving stack word) : Unclosed word ↔ stack ≠ [] := by
  cases stack with
  | nil =>
    cases h with
    | none hword =>
      exact ⟨fun hunclosed => absurd hunclosed hword.not_unclosed, fun h => absurd rfl h⟩
  | cons b stack => exact ⟨fun _ => List.cons_ne_nil _ _, fun _ => h.innermost.unclosed⟩

end Leaving

theorem role_of_opening {k : TokenKind} (h : k.delimiter? = some (.opening b)) :
    Nesting.role k = .opens := by
  cases k <;> first | rfl | cases h

theorem role_of_closing {k : TokenKind} (h : k.delimiter? = some (.closing b)) :
    Nesting.role k = .closes := by
  cases k <;> first | rfl | cases h

theorem role_of_no_delimiter {k : TokenKind} (h : k.delimiter? = none) :
    Nesting.role k = .completes ∨ ∃ more, Nesting.role k = .awaits (more + 1) := by
  cases k <;> first | exact .inl rfl | exact .inr ⟨_, rfl⟩ | cases h

namespace Pending

variable {st st' : List Pending} {k : TokenKind} {ks : List TokenKind}

def bracket? : Pending → Option Bracket
  | closing b => some b
  | _ => none

def level : Pending → Nesting.Level
  | forms more => .awaiting (more + 1)
  | map => .awaiting 1
  | closing _ => .delimiter

inductive Step (k : TokenKind) : List Pending → List Pending → Prop
  | opens {b : Bracket} (st : List Pending) : k.delimiter? = some (.opening b) →
    Step k st (.closing b :: st)
  | closes {b : Bracket} (st : List Pending) : k.delimiter? = some (.closing b) →
    Step k (.closing b :: st) (complete st)
  | awaits {p : Pending} {more : Nat} (st : List Pending) : Nesting.role k = .awaits (more + 1) →
    p.bracket? = none → p.level = .awaiting (more + 1) → Step k st (p :: st)
  | completes (st : List Pending) : Nesting.role k = .completes → Step k st (complete st)

theorem step_of_follow (h : follow st k = some st') : Step k st st' := by
  have hbrace : st.head? = some .map → k = .leftBrace := fun hmap =>
    Classical.byContradiction fun hk => nomatch (follow_map hmap hk).symm.trans h
  cases hk : k.delimiter? with
  | some delimiter =>
    cases delimiter with
    | opening b =>
      rw [follow_opening hk hbrace] at h
      obtain rfl := Option.some.inj h
      exact .opens st hk
    | closing b =>
      have hst : Open st := open_of_follow h (by rintro rfl; cases hk)
      rw [follow_closing hk hst, Option.ite_none_right_eq_some] at h
      obtain ⟨hhead, htail⟩ := h
      obtain ⟨rest, rfl⟩ := List.head?_eq_some_iff.1 hhead
      obtain rfl := Option.some.inj htail
      exact .closes rest hk
  | none =>
    have hst : Open st := open_of_follow h (by rintro rfl; cases hk)
    rcases role_of_no_delimiter hk with hrole | ⟨more, hrole⟩
    · rw [follow_literal hrole hst] at h
      obtain rfl := Option.some.inj h
      exact .completes st hrole
    · by_cases hplain : k = .namespacedMapPrefix
      · subst hplain
        rw [follow_mapPrefix hst] at h
        obtain rfl := Option.some.inj h
        exact .awaits st rfl rfl rfl
      · obtain rfl := follow_awaits h hrole hplain
        exact .awaits st hrole rfl rfl

theorem brackets_complete (st : List Pending) :
    (complete st).filterMap bracket? = st.filterMap bracket? := by
  fun_induction complete st with
  | case1 more st => rfl
  | case2 st ih | case3 st ih => exact ih
  | case4 => rfl

theorem levels_complete (st : List Pending) :
    Nesting.complete (st.map level) = (complete st).map level := by
  fun_induction complete st with
  | case1 more st =>
    rw [List.map_cons, level, Nesting.complete, if_pos (by omega)]
    rfl
  | case2 st ih | case3 st ih => exact ih
  | case4 st hmore hlast hmap =>
    cases st with
    | nil => rfl
    | cons pending st =>
      cases pending with
      | closing b => rfl
      | forms more =>
        cases more with
        | zero => exact absurd rfl (hlast st)
        | succ more => exact absurd rfl (hmore more st)
      | map => exact absurd rfl (hmap st)

theorem leaving_of_run (h : run st ks = some st') (hword : Leaving (st.filterMap bracket?) word) :
    Leaving (st'.filterMap bracket?) (word ++ ks.filterMap TokenKind.delimiter?) := by
  induction ks generalizing st word with
  | nil =>
    obtain rfl := Option.some.inj h
    rwa [List.filterMap_nil, List.append_nil]
  | cons k ks ih =>
    obtain ⟨mid, hfollow, hrest⟩ := Option.bind_eq_some_iff.1 h
    have plain : k.delimiter? = none → mid.filterMap bracket? = st.filterMap bracket? →
        Leaving (st'.filterMap bracket?) (word ++ (k :: ks).filterMap TokenKind.delimiter?) := by
      intro hk hbrackets
      rw [List.filterMap_cons_none hk]
      exact ih hrest (hbrackets ▸ hword)
    cases step_of_follow hfollow with
    | @opens b _ hk =>
      rw [List.filterMap_cons_some hk, List.append_cons]
      exact ih hrest (hword.openBracket b)
    | @closes b rest hk =>
      rw [List.filterMap_cons_some hk, List.append_cons]
      refine ih hrest ?_
      rw [brackets_complete]
      exact hword.closeBracket
    | awaits _ hrole hbracket _ =>
      exact plain (delimiter?_of_awaits hrole) (List.filterMap_cons_none hbracket)
    | completes _ hrole => exact plain (delimiter?_of_completes hrole) (brackets_complete st)

theorem levels_of_run (h : run st ks = some st') :
    Nesting.after (st.map level) ks = st'.map level := by
  induction ks generalizing st with
  | nil =>
    obtain rfl := Option.some.inj h
    rfl
  | cons k ks ih =>
    obtain ⟨mid, hfollow, hrest⟩ := Option.bind_eq_some_iff.1 h
    have hstep : Nesting.step (st.map level) (Nesting.role k) = mid.map level := by
      cases step_of_follow hfollow with
      | opens _ hk => rw [role_of_opening hk]; rfl
      | closes rest hk =>
        rw [role_of_closing hk]
        exact levels_complete rest
      | awaits _ hrole _ hlevel =>
        rw [hrole, List.map_cons, hlevel]
        rfl
      | completes _ hrole =>
        rw [hrole]
        exact levels_complete st
    rw [Nesting.after, List.foldl_cons, hstep]
    exact ih hrest

theorem delimiter_mem_levels_iff (st : List Pending) :
    Nesting.Level.delimiter ∈ st.map level ↔ st.filterMap bracket? ≠ [] := by
  have member : ∀ p : Pending, p.level = .delimiter ↔ p.bracket? ≠ none := by
    intro p
    cases p <;> simp [level, bracket?]
  simp only [List.mem_map, member, Ne, List.filterMap_eq_nil_iff, not_forall, exists_prop]

end Pending

theorem Nesting.Padded.delimiter_mem_iff {ls ms : List Nesting.Level} (h : Nesting.Padded ls ms) :
    Nesting.Level.delimiter ∈ ls ↔ Nesting.Level.delimiter ∈ ms := by
  induction h with
  | nil => rfl
  | same level _ ih => rw [List.mem_cons, List.mem_cons, ih]
  | extra _ ih => rw [List.mem_cons, ih, or_iff_right nofun]

theorem Follows.exists_settles {st st' : List Pending} {c c' : Cursor}
    (h : Follows Decided st c st' c') {d : Cursor} (hd : skipTrivia d = c) :
    ∃ ts ks stop, Spells Settles d ts stop ∧ ts.map Token.rule = ks.map TokenKind.index ∧
      Pending.run st ks = some st' ∧ skipTrivia stop = c' := by
  induction h generalizing d with
  | done st c => exact ⟨[], [], d, .done d, rfl, rfl, hd⟩
  | @token k st st₁ st₂ c c' taken left hcut hk hfollow _ ih =>
    subst hd
    obtain ⟨ts, ks, stop, hts, hkinds, hrun, hstop⟩ := ih rfl
    exact ⟨_, k :: ks, stop, .token hcut hk.settles hts, congrArg (List.cons _) hkinds,
      (Pending.run_cons_of_follow hfollow).trans hrun, hstop⟩

variable {text : String} {tokens : List Token} {st : List Pending} {c : Cursor}

theorem exists_derive_of_settled (h : Follows Decided [] (skipTrivia (.start text.toList)) [] c)
    (hend : c.rest = []) : ∃ tree, derive text = .ok tree := by
  obtain ⟨ts, ks, stop, hts, hkinds, hrun, rfl⟩ := h.exists_settles rfl
  have hfinish : Pending.Finishes [] (ks ++ []) := .of_run hrun (.done .nil)
  obtain ⟨d, hvalid, hroot, hleaves⟩ := hfinish.exists_derivation
  rw [List.append_nil] at hleaves
  rw [← hleaves] at hkinds
  obtain ⟨tree, htree, -⟩ := exists_derive_of_spells hts hend hvalid hroot hkinds
  exact ⟨tree, htree⟩

theorem leaving_of_lex (h : Follows Decided [] (skipTrivia (.start text.toList)) st c)
    (hend : c.rest = []) (hlex : lex text = .ok tokens) :
    Leaving (st.filterMap Pending.bracket?) (delimitersOf tokens) ∧
      Nesting.Padded (st.map Pending.level) (Nesting.levelsAfter [] tokens) := by
  obtain ⟨ts, ks, stop, hts, hkinds, hrun, rfl⟩ := h.exists_settles rfl
  obtain ⟨ls, js, hls, hlexed, hrecut⟩ := hts.exists_recut hkinds
  obtain ⟨stop', hpreferred, hend'⟩ := exists_spells_of_lex hlex
  obtain rfl := hls.preferred_unique hpreferred hend hend'
  constructor
  · rw [delimitersOf_eq hlexed, hrecut.delimiters_eq]
    exact Pending.leaving_of_run hrun (.none .nil)
  · rw [Nesting.levelsAfter_eq hlexed, ← Pending.levels_of_run hrun]
    exact .after hrecut .nil

end HiccupReader.Clojure
