import HiccupReader.Proofs.Clojure.Levels

/-! The depth that is counted at a token is the number of collections and reader macros around it,
in each derivation of the tokens. Only the tokens that open a level are looked at: at any other one
the count may already have left levels that end with it. -/

namespace HiccupReader.Clojure

namespace Nesting

open Rose (leavesUnder leavesUnderAll)

variable {levels : List Level} {tokens ts us : List Token} {places : List (Nat × TokenKind)}

def opensLevel (k : TokenKind) : Bool :=
  match role k with
  | .opens | .awaits _ => true
  | .closes | .completes => false

theorem step_length_of_opensLevel {k : TokenKind} (h : opensLevel k = true) :
    (step levels (role k)).length = levels.length + 1 := by
  unfold opensLevel at h
  cases hk : role k with
  | opens => rfl
  | awaits forms => rfl
  | closes => rw [hk] at h; cases h
  | completes => rw [hk] at h; cases h

theorem step_length_le {k : TokenKind} (h : opensLevel k = false) :
    (step levels (role k)).length ≤ levels.length := by
  unfold opensLevel at h
  cases hk : role k with
  | opens => rw [hk] at h; cases h
  | awaits forms => rw [hk] at h; cases h
  | closes =>
    calc (complete (levels.dropWhile Level.isAwaiting).tail).length
        ≤ (levels.dropWhile Level.isAwaiting).tail.length := complete_length_le _
      _ ≤ (levels.dropWhile Level.isAwaiting).length := (List.tail_sublist _).length_le
      _ ≤ levels.length := (List.dropWhile_sublist _).length_le
  | completes => exact complete_length_le levels

/-- At each place where a level is opened the count is the number that stands there. -/
def Counted (levels : List Level) : List (Nat × TokenKind) → Prop
  | [] => True
  | (around, k) :: places =>
    (opensLevel k = true → (step levels (role k)).length = around) ∧
      Counted (step levels (role k)) places

theorem counted_append_iff {others : List (Nat × TokenKind)} :
    Counted levels (places ++ others) ↔
      Counted levels places ∧ Counted (after levels (places.map Prod.snd)) others := by
  induction places generalizing levels with
  | nil => exact ⟨fun h => ⟨trivial, h⟩, And.right⟩
  | cons place places ih =>
    rw [List.cons_append, Counted, Counted, ih, and_assoc]
    rfl

theorem counted_closing {k : TokenKind} (h : opensLevel k = false) (around : Nat) :
    Counted levels [(around, k)] :=
  ⟨fun hopens => absurd hopens (by simp [h]), trivial⟩

def CountedUnder (d : Derivation) : Prop :=
  ∀ levels, (d.root = .rule .forms → complete levels = levels) →
    Counted levels (d.leavesUnder Rule.nests levels.length)

theorem counted_awaited {ds : List Derivation} (hroots : ∀ d ∈ ds, d.root ≠ .rule .forms)
    (hformed : ∀ d ∈ ds, Formed d) (hds : ∀ d ∈ ds, CountedUnder d) (levels : List Level) :
    Counted (.awaiting ds.length :: levels)
      (leavesUnderAll Rule.nests (levels.length + 1) ds) := by
  induction ds with
  | nil => trivial
  | cons d ds ih =>
    obtain ⟨hroot, hroots⟩ := List.forall_mem_cons.1 hroots
    obtain ⟨hd, hformed⟩ := List.forall_mem_cons.1 hformed
    obtain ⟨hcounted, hds⟩ := List.forall_mem_cons.1 hds
    have hidle : d.root = .rule .forms → complete (.awaiting (d :: ds).length :: levels) =
      .awaiting (d :: ds).length :: levels := fun hforms => absurd hforms hroot
    rw [leavesUnderAll, counted_append_iff, Rose.map_snd_leavesUnder,
      (hd.completes _ hidle).after_eq]
    refine ⟨hcounted _ hidle, ?_⟩
    cases ds with
    | nil => trivial
    | cons e es => exact ih hroots hformed hds

theorem Formed.countedUnder {d : Derivation} (h : Formed d) : CountedUnder d := by
  induction h with
  | @choice r options d hr hroot _ ih =>
    intro levels _
    simp only [leavesUnder, leavesUnderAll, nests_eq_false_of_choice hr, List.append_nil]
    exact ih levels fun hforms => absurd hforms hroot
  | @single r k hr hk =>
    intro levels _
    simp only [leavesUnder, leavesUnderAll, List.append_nil]
    exact counted_closing (by rw [opensLevel, hk]) _
  | @enclosed r j k d hr hj hk hnests hd ih =>
    intro levels _
    have hidle : d.root = .rule .forms → complete (.delimiter :: levels) = .delimiter :: levels :=
      fun _ => rfl
    have hplaces : leavesUnder Rule.nests levels.length (.node r [.leaf j, d, .leaf k]) =
        (levels.length + 1, j) ::
          (d.leavesUnder Rule.nests (levels.length + 1) ++ [(levels.length + 1, k)]) := by
      simp [leavesUnder, leavesUnderAll, hnests]
    rw [hplaces, Counted, counted_append_iff, hj]
    refine ⟨fun _ => rfl, ih _ hidle, counted_closing ?_ _⟩
    rw [opensLevel, hk]
  | @awaiting r k ds _ hk _ hnests hroots hformed ih =>
    intro levels _
    have hplaces : leavesUnder Rule.nests levels.length (.node r (.leaf k :: ds)) =
        (levels.length + 1, k) :: leavesUnderAll Rule.nests (levels.length + 1) ds := by
      simp [leavesUnder, leavesUnderAll, hnests]
    rw [hplaces, Counted, hk]
    exact ⟨fun _ => rfl, counted_awaited hroots hformed ih levels⟩
  | @forms ds hroots hformed ih =>
    intro levels hlevels
    have hidle : complete levels = levels := hlevels rfl
    clear hlevels
    rw [leavesUnder]
    induction ds with
    | nil => trivial
    | cons d ds ihds =>
      obtain ⟨hroot, hroots⟩ := List.forall_mem_cons.1 hroots
      obtain ⟨hd, hformed⟩ := List.forall_mem_cons.1 hformed
      obtain ⟨hcounted, hds⟩ := List.forall_mem_cons.1 ih
      have hfirst : d.root = .rule .forms → complete levels = levels := fun _ => hidle
      rw [leavesUnderAll, counted_append_iff, Rose.map_snd_leavesUnder,
        (hd.completes levels hfirst).after_eq, hidle]
      exact ⟨hcounted levels hfirst, ihds hroots hformed hds⟩

theorem Formed.of_forms {ds : List Derivation} (h : Formed (.node .forms ds)) :
    (∀ d ∈ ds, d.root = .rule .form) ∧ ∀ d ∈ ds, Formed d := by
  cases h with
  | choice hr | single hr | enclosed hr => cases hr
  | awaiting hr => cases hr
  | forms hroots hformed => exact ⟨hroots, hformed⟩

def CountedAt (entry : Nat × Token) (place : Nat × TokenKind) : Prop :=
  entry.2.rule = place.2.index ∧ (opensLevel place.2 = true → entry.1 = place.1)

theorem Counted.forall₂ (h : Counted levels places)
    (hkinds : tokens.map Token.rule = (places.map Prod.snd).map TokenKind.index) :
    List.Forall₂ CountedAt (depths levels tokens) places := by
  induction places generalizing levels tokens with
  | nil =>
    obtain rfl := List.map_eq_nil_iff.1 hkinds
    exact .nil
  | cons place places ih =>
    obtain ⟨token, rest, rfl, hrule, hrest⟩ := List.map_eq_cons_iff.1 hkinds
    rw [depths, roleOf_eq hrule]
    exact .cons ⟨hrule, h.1⟩ (ih h.2 hrest)

theorem depths_concat (levels : List Level) (front : List Token) (token : Token)
    (back : List Token) :
    (depths levels (front ++ token :: back))[front.length]? =
      some ((levelsAfter levels (front ++ [token])).length, token) := by
  have hlength : (depths levels front).length = front.length := by
    clear back token
    induction front generalizing levels with
    | nil => rfl
    | cons first front ih => rw [depths, List.length_cons, List.length_cons, ih]
  rw [depths_append, ← hlength, List.getElem?_append_right (Nat.le_refl _), Nat.sub_self,
    levelsAfter, List.foldl_append]
  rfl

theorem Formed.exists_entry_behind {before behind : List Derivation} {f : Derivation}
    (h : Formed (.node .forms (before ++ f :: behind)))
    (hkinds : tokens.map Token.rule =
      (Rose.leavesAll (before ++ f :: behind)).map TokenKind.index) :
    ∃ front last back, tokens = front ++ last :: back ∧
      (front ++ [last]).map Token.rule = (Rose.leavesAll (before ++ [f])).map TokenKind.index ∧
      (depths [] tokens)[front.length]? = some (0, last) := by
  obtain ⟨hroots, hformed⟩ := h.of_forms
  have hmem : ∀ d ∈ before ++ [f], d ∈ before ++ f :: behind := by
    intro d hd
    rw [List.append_cons]
    exact List.mem_append_left _ hd
  have hfront : Formed (.node .forms (before ++ [f])) :=
    .forms (fun d hd => hroots d (hmem d hd)) fun d hd => hformed d (hmem d hd)
  have hf : f.leaves ≠ [] :=
    (hformed f (by simp)).ne_nil (by rw [hroots f (by simp)]; decide)
  have hnone : after [] (Rose.leavesAll (before ++ [f])) = [] :=
    (hfront.completes [] fun _ => rfl).after_eq
  rw [List.append_cons, Rose.leavesAll_append, List.map_append] at hkinds
  obtain ⟨ts, back, rfl, hts, -⟩ := List.map_eq_append_iff.1 hkinds
  rcases List.eq_nil_or_concat ts with rfl | ⟨front, last, rfl⟩
  · have hnil : Rose.leavesAll (before ++ [f]) = [] := by simpa using hts
    simp [Rose.leavesAll, hf] at hnil
  · rw [List.concat_eq_append] at hts ⊢
    refine ⟨front, last, back, by simp, hts, ?_⟩
    rw [List.append_assoc, List.singleton_append, depths_concat, levelsAfter_eq hts, hnone]
    rfl

theorem exists_of_find?_depths {entry : Nat × Token}
    (h : (depths levels tokens).find? (fun (depth, _) => limit < depth) = some entry) :
    ∃ front back, tokens = front ++ entry.2 :: back ∧ Shallow levels front ∧
      limit < (step (levelsAfter levels front) (roleOf entry.2)).length := by
  induction tokens generalizing levels with
  | nil => cases h
  | cons token tokens ih =>
    rw [depths, List.find?_cons] at h
    dsimp only at h
    by_cases hdeep : limit < (step levels (roleOf token)).length
    · rw [decide_eq_true hdeep] at h
      obtain rfl := Option.some.inj h
      exact ⟨[], tokens, rfl, shallow_nil levels, hdeep⟩
    · rw [decide_eq_false hdeep] at h
      obtain ⟨front, back, rfl, hshallow, hlt⟩ := ih h
      exact ⟨token :: front, back, rfl, shallow_cons_iff.2 ⟨Nat.le_of_not_lt hdeep, hshallow⟩, hlt⟩

theorem levelsAfter_length_le (h : Shallow levels ts) (hlevels : levels.length ≤ limit) :
    (levelsAfter levels ts).length ≤ limit := by
  induction ts generalizing levels with
  | nil => exact hlevels
  | cons t ts ih =>
    obtain ⟨hfirst, hrest⟩ := shallow_cons_iff.1 h
    exact ih hrest hfirst

theorem Counted.le_limit (h : Counted levels places)
    (hkinds : ts.map Token.rule = (places.map Prod.snd).map TokenKind.index)
    (hshallow : Shallow levels ts) :
    ∀ place ∈ places, opensLevel place.2 = true → place.1 ≤ limit := by
  induction places generalizing levels ts with
  | nil => exact nofun
  | cons place places ih =>
    obtain ⟨t, ts, rfl, hrule, hrest⟩ := List.map_eq_cons_iff.1 hkinds
    rw [shallow_cons_iff, roleOf_eq hrule] at hshallow
    refine List.forall_mem_cons.2 ⟨fun hopens => ?_, ih h.2 hrest hshallow.2⟩
    rw [← h.1 hopens]
    exact hshallow.1

theorem Counted.exists_first (h : Counted [] places)
    (hkinds : tokens.map Token.rule = (places.map Prod.snd).map TokenKind.index) {token : Token}
    (hdeep : firstTooDeep? tokens = some token) :
    ∃ front back outer k inner, tokens = front ++ token :: back ∧
      places = outer ++ (limit + 1, k) :: inner ∧ outer.length = front.length ∧
      opensLevel k = true ∧ ∀ place ∈ outer, opensLevel place.2 = true → place.1 ≤ limit := by
  obtain ⟨entry, hfound, rfl⟩ := Option.map_eq_some_iff.1 hdeep
  obtain ⟨front, back, rfl, hshallow, hlt⟩ := exists_of_find?_depths hfound
  rw [List.map_map, List.map_append, List.map_cons] at hkinds
  obtain ⟨outer, rest, rfl, houter, hrest⟩ := List.map_eq_append_iff.1 hkinds.symm
  obtain ⟨⟨around, k⟩, inner, rfl, hk, -⟩ := List.map_eq_cons_iff.1 hrest
  have hfront : front.map Token.rule = (outer.map Prod.snd).map TokenKind.index := by
    rw [List.map_map, houter]
  obtain ⟨hcounted, haround, -⟩ := counted_append_iff.1 h
  rw [← levelsAfter_eq hfront] at haround
  have hlt' : limit < (step (levelsAfter [] front) (role k)).length := by
    rwa [← roleOf_eq hk.symm]
  have hbefore := levelsAfter_length_le hshallow (Nat.zero_le limit)
  -- A token that ends forms only takes levels away, and no more than the limit stand before it.
  have hopens : opensLevel k = true := by
    by_contra hcloses
    have hle : (step (levelsAfter [] front) (role k)).length ≤ (levelsAfter [] front).length :=
      step_length_le (Bool.not_eq_true _ ▸ hcloses)
    omega
  have hstep : (step (levelsAfter [] front) (role k)).length = (levelsAfter [] front).length + 1 :=
    step_length_of_opensLevel hopens
  have hlevel : around = limit + 1 := by
    have hcount : (step (levelsAfter [] front) (role k)).length = around := haround hopens
    omega
  subst hlevel
  refine ⟨front, back, outer, k, inner, rfl, rfl, ?_, hopens, hcounted.le_limit hfront hshallow⟩
  rw [← List.length_map (fun place => place.2.index), ← List.length_map Token.rule]
  exact congrArg List.length houter

theorem recut_refl (ks : List TokenKind) : Recut ks ks := by
  induction ks with
  | nil => exact .nil
  | cons k ks ih => exact ih.same k

theorem nesting_le_limit_iff {d : Derivation} (hvalid : d.Valid) (hroot : d.root = .rule .forms)
    (hkinds : tokens.map Token.rule = d.leaves.map TokenKind.index) :
    d.nesting ≤ limit ↔ firstTooDeep? tokens = none :=
  ⟨fun hle => firstTooDeep?_eq_none hvalid hroot hle hkinds,
    fun hdeep => (recut_refl d.leaves).nesting_le hvalid hroot hkinds hdeep⟩

end Nesting

open Nesting

theorem checkNesting_eq_error_iff {tokens : List Token} {error : SyntaxError} :
    checkNesting tokens = .error error ↔
      ∃ token, firstTooDeep? tokens = some token ∧ error = .tooDeep token.span := by
  unfold checkNesting
  split
  · next token htoken => simp [htoken, eq_comm]
  · next hnone => simp [hnone]

/-- The depth at a token that opens a level is the number of collections and reader macros around
it, and none is left behind a form of the top level. The check refuses what nests deeper than the
limit, at the token that opens the first level beyond it. -/
theorem depths_exact (d : Derivation) (tokens : List Token) (hvalid : d.Valid)
    (hroot : d.root = .rule .forms)
    (hkinds : tokens.map Token.rule = d.leaves.map TokenKind.index) :
    List.Forall₂ CountedAt (depths [] tokens) (d.leavesUnder Rule.nests 0) ∧
      (∀ before f behind, d = .node .forms (before ++ f :: behind) →
        ∃ front last back, tokens = front ++ last :: back ∧
          (front ++ [last]).map Token.rule =
            (Rose.leavesAll (before ++ [f])).map TokenKind.index ∧
          (depths [] tokens)[front.length]? = some (0, last)) ∧
      ((∃ error, checkNesting tokens = .error error) ↔ limit < d.nesting) ∧
      ∀ error, checkNesting tokens = .error error →
        ∃ front token back outer k inner, tokens = front ++ token :: back ∧
          error = .tooDeep token.span ∧
          d.leavesUnder Rule.nests 0 = outer ++ (limit + 1, k) :: inner ∧
          outer.length = front.length ∧ opensLevel k = true ∧
          ∀ place ∈ outer, opensLevel place.2 = true → place.1 ≤ limit := by
  have hformed : Formed d := formed_of_valid hvalid (by rw [hroot]; rfl)
  have hcounted : Counted [] (d.leavesUnder Rule.nests 0) := hformed.countedUnder [] fun _ => rfl
  have hplaces : tokens.map Token.rule =
      ((d.leavesUnder Rule.nests 0).map Prod.snd).map TokenKind.index := by
    rw [hkinds, Rose.map_snd_leavesUnder]
  refine ⟨hcounted.forall₂ hplaces, ?_, ?_, ?_⟩
  · rintro before f behind rfl
    exact hformed.exists_entry_behind hkinds
  · rw [← Nat.not_le, nesting_le_limit_iff hvalid hroot hkinds, ← Ne, Option.ne_none_iff_exists']
    simp only [checkNesting_eq_error_iff]
    exact ⟨fun ⟨_, token, htoken, _⟩ => ⟨token, htoken⟩,
      fun ⟨token, htoken⟩ => ⟨_, token, htoken, rfl⟩⟩
  · intro error herror
    obtain ⟨token, htoken, rfl⟩ := checkNesting_eq_error_iff.1 herror
    obtain ⟨front, back, outer, k, inner, htokens, houter, hlength, hopens, hshallow⟩ :=
      hcounted.exists_first hplaces htoken
    exact ⟨front, token, back, outer, k, inner, htokens, rfl, houter, hlength, hopens, hshallow⟩

theorem depths_exact_marked_map :
    ∃ (d : Derivation) (tree : Tree), derive "^a #:b{c d} 'e" = .ok tree ∧
      (depths [] tree.leaves).map Prod.fst = [1, 1, 2, 3, 3, 3, 0, 1, 0] ∧
      d.Valid ∧ d.root = .rule .forms ∧
      tree.leaves.map Token.rule = d.leaves.map TokenKind.index ∧
      List.Forall₂ CountedAt (depths [] tree.leaves) (d.leavesUnder Rule.nests 0) := by
  have hfound : (derive "^a #:b{c d} 'e").toOption.map
      (fun tree => (depths [] tree.leaves).map Prod.fst) = some [1, 1, 2, 3, 3, 3, 0, 1, 0] := by
    decide +kernel
  obtain ⟨tree, htree, hdepths⟩ := Option.map_eq_some_iff.1 hfound
  have hderive := eq_ok_of_toOption htree
  obtain ⟨c, hread⟩ := derive_eq_ok_iff.1 hderive
  obtain ⟨d, hvalid, hroot, hkinds, -⟩ := exists_code_of_derives (derives_of_reading hread)
  exact ⟨d, tree, hderive, hdepths, hvalid, hroot, hkinds,
    (depths_exact d tree.leaves hvalid hroot hkinds).1⟩

end HiccupReader.Clojure
