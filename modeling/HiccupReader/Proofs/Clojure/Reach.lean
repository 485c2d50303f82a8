import HiccupReader.Proofs.Clojure.Agreement
import HiccupReader.Proofs.Matching.Frontier

/-! How far a symbol is tried at a place before it is matched or given up. A form is tried as far as
any of the rules that it may open with. -/

namespace HiccupReader.Clojure

open Matching

instance (s : Symbol) (c : Cursor) : Decidable (Accepts s c) :=
  inferInstanceAs (Decidable (_ = true))

/-- The furthest place where something failed, and the place itself if it is further on. -/
def reach (s : Symbol) (c : Cursor) : Nat :=
  max c.offset (matchSymbol matchAt s c).frontier.offset

def reachFirst : List Symbol → Cursor → Nat
  | [], c => c.offset
  | s :: options, c =>
    if Accepts s c then reach s c else max (reach s c) (reachFirst options c)

abbrev matchParts (parts : List Part) : Matcher Goal (List Tree) :=
  Matcher.inOrder skipTrivia (parts.map (matchPart matchAt))

theorem accepts_iff_result {s : Symbol} {c : Cursor} :
    Accepts s c ↔ (matchSymbol matchAt s c).result.isSome = true := by
  rw [Accepts, leavesAt, Option.isSome_map]

theorem not_accepts_iff {s : Symbol} {c : Cursor} :
    ¬ Accepts s c ↔ (matchSymbol matchAt s c).result = none := by
  rw [accepts_iff_result, Bool.not_eq_true, Option.isSome_eq_false_iff, Option.isNone_iff_eq_none]

theorem offset_le_reach (s : Symbol) (c : Cursor) : c.offset ≤ reach s c := Nat.le_max_left _ _

theorem reach_rule (r : Rule) (c : Cursor) :
    reach (.rule r) c =
      max c.offset (matchProduction matchAt r.production c).frontier.offset := by
  have hmatch : matchSymbol matchAt (.rule r) c = matchAt r c := rfl
  rw [reach, hmatch, matchAt_eq]
  cases hresult : (matchProduction matchAt r.production c).result with
  | none =>
    rw [Attempt.offset_aimedAt_of_none (by rw [Attempt.result_andThen, hresult]; rfl),
      Attempt.offset_andThen_success]
    omega
  | some found =>
    rw [Attempt.offset_aimedAt_of_some (by rw [Attempt.result_andThen, hresult]; rfl),
      Attempt.offset_andThen_success]

theorem reach_of_refused {r : Rule} {c : Cursor} (h : ¬ Accepts (.rule r) c) :
    (matchAt r c).frontier.offset = reach (.rule r) c := by
  have hresult : (matchProduction matchAt r.production c).result = none := by
    have hnone : (matchAt r c).result = none := not_accepts_iff.1 h
    rw [result_matchAt] at hnone
    exact Option.map_eq_none_iff.1 hnone
  rw [reach_rule, matchAt_eq,
    Attempt.offset_aimedAt_of_none (by rw [Attempt.result_andThen, hresult]; rfl),
    Attempt.offset_andThen_success]

section

variable {options : List Symbol} {c : Cursor}

theorem offset_firstOf (options : List Symbol) (c : Cursor) :
    max c.offset (Matcher.firstOf (options.map (matchSymbol matchAt)) c).frontier.offset =
      reachFirst options c := by
  induction options with
  | nil => exact Nat.max_zero _
  | cons s options ih =>
    rw [List.map_cons, Matcher.firstOf, reachFirst]
    split
    · next hresult => rw [if_pos (accepts_iff_result.2 (by rw [hresult]; rfl)), reach]
    · next hresult =>
      rw [if_neg (not_accepts_iff.2 hresult), ← ih, Attempt.offset_after, reach]
      omega

theorem offset_le_reachFirst (options : List Symbol) (c : Cursor) :
    c.offset ≤ reachFirst options c := by
  rw [← offset_firstOf]
  exact Nat.le_max_left _ _

theorem reach_choice {r : Rule} (hr : r.production = .choice options) (c : Cursor) :
    reach (.rule r) c = reachFirst options c := by
  rw [reach_rule, hr, ← offset_firstOf, matchProduction, Attempt.offset_andThen_success]

theorem accepts_choice_iff {r : Rule} (hr : r.production = .choice options) :
    Accepts (.rule r) c ↔ ∃ s ∈ options, Accepts s c := by
  rw [Accepts, leavesAt_choice hr, List.findSome?_isSome_iff]
  rfl

theorem reachFirst_append (ss us : List Symbol) (c : Cursor) :
    reachFirst (ss ++ us) c =
      if ∃ s ∈ ss, Accepts s c then reachFirst ss c
      else max (reachFirst ss c) (reachFirst us c) := by
  induction ss with
  | nil => simp [reachFirst, offset_le_reachFirst]
  | cons s ss ih =>
    rw [List.cons_append, reachFirst, reachFirst]
    by_cases hs : Accepts s c
    · simp [hs]
    · by_cases hrest : ∃ x ∈ ss, Accepts x c
      · simp [hs, hrest, ih]
      · simp [hs, hrest, ih, Nat.max_assoc]

theorem reachFirst_le {bound : Nat} (hbound : c.offset ≤ bound)
    (h : ∀ x ∈ options, (∀ y ∈ options.takeWhile (· ≠ x), ¬ Accepts y c) → reach x c ≤ bound) :
    reachFirst options c ≤ bound := by
  induction options with
  | nil => exact hbound
  | cons s options ih =>
    have hs : reach s c ≤ bound := h s (List.mem_cons_self ..) (by simp)
    rw [reachFirst]
    split
    · exact hs
    · next hrefused =>
      refine Nat.max_le.2 ⟨hs, ih fun x hx hearlier => ?_⟩
      refine h x (List.mem_cons_of_mem _ hx) fun y hy => ?_
      by_cases hsx : s = x
      · rw [List.takeWhile_cons_of_neg (by simpa using hsx)] at hy
        cases hy
      · rw [List.takeWhile_cons_of_pos (by simpa using hsx)] at hy
        rcases List.mem_cons.1 hy with rfl | hy
        · exact hrefused
        · exact hearlier y hy

theorem reach_le_reachFirst (h : ∀ x ∈ options, ¬ Accepts x c) :
    ∀ x ∈ options, reach x c ≤ reachFirst options c := by
  induction options with
  | nil => simp
  | cons s options ih =>
    obtain ⟨hs, hrest⟩ := List.forall_mem_cons.1 h
    rw [reachFirst, if_neg hs]
    refine List.forall_mem_cons.2 ⟨Nat.le_max_left _ _, fun x hx => ?_⟩
    exact Nat.le_trans (ih hrest x hx) (Nat.le_max_right _ _)

end

theorem reach_form (c : Cursor) : reach (.rule .form) c = reachFirst openers c := by
  have hform : Rule.form.production =
      .choice [.rule .collection, .rule .readerMacro, .rule .literal] := rfl
  have hgroup : ∀ {r : Rule} {options : List Symbol}, r.production = .choice options →
      reach (.rule r) c = reachFirst r.production.firsts c ∧
        (Accepts (.rule r) c ↔ ∃ s ∈ r.production.firsts, Accepts s c) := by
    intro r options hr
    rw [accepts_choice_iff hr, reach_choice hr, hr]
    exact ⟨rfl, Iff.rfl⟩
  obtain ⟨hcollection, hcollection'⟩ := hgroup (r := .collection) rfl
  obtain ⟨hreader, hreader'⟩ := hgroup (r := .readerMacro) rfl
  obtain ⟨hliteral, hliteral'⟩ := hgroup (r := .literal) rfl
  have hfloor := offset_le_reach (.rule .literal) c
  rw [reach_choice hform, openers, List.append_assoc, reachFirst_append, reachFirst_append]
  simp only [← hcollection', ← hreader', ← hcollection, ← hreader, ← hliteral, reachFirst,
    Nat.max_eq_left hfloor, ite_self]

section

variable {r : Rule} {k : TokenKind} {parts : List Part} {c : Cursor} {taken left : List Char}

theorem matchAt_opener_of_none (hr : r.production = .sequence (.one (.token k) :: parts))
    (hc : Settled c) (hnone : k.lexeme c.rest = none) :
    matchAt r c = ⟨none, .failure (.symbol (.token k)) c.offset⟩ := by
  have htoken : matchToken k c = .failure (.symbol (.token k)) c.offset := by
    rw [matchToken, hnone]
  rw [matchAt_eq, hr, matchProduction, List.map_cons, Matcher.inOrder, hc, matchPart, matchSymbol,
    htoken]
  simp only [Attempt.andThen, Attempt.failure, Attempt.aimedAt, Frontier.settle, Frontier.failure]
  simp

theorem matchAt_opener_of_some (hr : r.production = .sequence (.one (.token k) :: parts))
    (hc : Settled c) (hcut : k.lexeme c.rest = some (taken, left)) :
    matchAt r c = ((matchParts parts (c.advance taken left)).andThen fun more e =>
      .success (.node ⟨r.index, c.offset, e.offset⟩ (.leaf (k.token c taken) :: more)) e).aimedAt
        (.symbol (.rule r)) c.offset := by
  have htoken : matchToken k c =
      .success (.leaf (k.token c taken)) (c.advance taken left) := by
    rw [matchToken, hcut]
    rfl
  rw [matchAt_eq, hr, matchProduction, List.map_cons, Matcher.inOrder, hc, matchPart, matchSymbol,
    htoken, Attempt.success_andThen, Attempt.success_andThen, Attempt.andThen_success_andThen]
  rfl

theorem reach_opener (hr : r.production = .sequence (.one (.token k) :: parts)) (hc : Settled c)
    (hcut : k.lexeme c.rest = some (taken, left)) :
    reach (.rule r) c =
      max c.offset (matchParts parts (c.advance taken left)).frontier.offset := by
  have hmatch : matchSymbol matchAt (.rule r) c = matchAt r c := rfl
  rw [reach, hmatch, matchAt_opener_of_some hr hc hcut]
  cases hresult : (matchParts parts (c.advance taken left)).result with
  | none =>
    rw [Attempt.offset_aimedAt_of_none (by rw [Attempt.result_andThen, hresult]; rfl),
      Attempt.offset_andThen_success]
    omega
  | some found =>
    rw [Attempt.offset_aimedAt_of_some (by rw [Attempt.result_andThen, hresult]; rfl),
      Attempt.offset_andThen_success]

theorem refused_opener (hr : r.production = .sequence (.one (.token k) :: parts)) (hc : Settled c)
    (hnone : k.lexeme c.rest = none) :
    ¬ Accepts (.rule r) c ∧ reach (.rule r) c = c.offset := by
  have hmatch : matchSymbol matchAt (.rule r) c = ⟨none, .failure (.symbol (.token k)) c.offset⟩ :=
    matchAt_opener_of_none hr hc hnone
  rw [not_accepts_iff, reach, hmatch]
  exact ⟨rfl, Nat.max_self _⟩

theorem stop_opener (hr : r.production = .sequence (.one (.token k) :: parts)) (hc : Settled c)
    (hcut : k.lexeme c.rest = some (taken, left)) :
    (matchAt r c).result.map Prod.snd =
      (matchParts parts (c.advance taken left)).result.map Prod.snd := by
  rw [matchAt_opener_of_some hr hc hcut, Attempt.result_aimedAt, Attempt.result_andThen]
  cases (matchParts parts (c.advance taken left)).result with
  | none => rfl
  | some found => rfl

end

theorem offset_le_of_refused {s : Symbol} {c : Cursor} (h : ¬ Accepts s c) :
    c.offset ≤ (matchSymbol matchAt s c).frontier.offset := by
  cases s with
  | rule r =>
    have hreach : (matchSymbol matchAt (.rule r) c).frontier.offset = reach (.rule r) c :=
      reach_of_refused h
    rw [hreach]
    exact offset_le_reach _ c
  | token k =>
    have hnone := not_accepts_iff.1 h
    rw [matchSymbol, result_matchToken, Option.map_eq_none_iff] at hnone
    rw [matchSymbol, matchToken, hnone]
    exact Nat.le_refl _

theorem floor_le_of_refused {ss : List Symbol} {c : Cursor}
    (h : (matchParts (ss.map .one) c).result = none) :
    (skipTrivia c).offset ≤ (matchParts (ss.map .one) c).frontier.offset := by
  induction ss generalizing c with
  | nil => cases h
  | cons s ss ih =>
    have hpart : (matchPart matchAt (.one s) (skipTrivia c)).frontier.offset =
        (matchSymbol matchAt s (skipTrivia c)).frontier.offset := by
      rw [matchPart, Attempt.offset_andThen_success]
    rw [matchParts, List.map_cons, List.map_cons] at h ⊢
    rw [Matcher.result_inOrder_cons] at h
    rw [Matcher.inOrder]
    cases hresult : (matchPart matchAt (.one s) (skipTrivia c)).result with
    | none =>
      rw [Attempt.offset_andThen_of_none hresult, hpart]
      rw [result_matchPart_one, Option.map_eq_none_iff, ← not_accepts_iff] at hresult
      exact offset_le_of_refused hresult
    | some found =>
      obtain ⟨ts, d⟩ := found
      have hd : (skipTrivia c).Reaches d := by
        rw [result_matchPart_one, Option.map_eq_some_iff] at hresult
        obtain ⟨⟨t, e⟩, hread, he⟩ := hresult
        obtain ⟨-, rfl⟩ := Prod.mk.inj he
        exact reaches_of_reading hread
      rw [hresult, Option.bind_some, Option.map_eq_none_iff] at h
      have hlater : (skipTrivia d).offset ≤
          (matchParts (ss.map .one) d).frontier.offset := ih h
      have hskip := (hd.trans (reaches_skipTrivia d)).offset_le
      rw [Attempt.offset_andThen_of_some hresult, Attempt.offset_andThen_success]
      exact Nat.le_trans (Nat.le_trans hskip hlater) (Nat.le_max_right _ _)

/-- Two attempts come to the same end, and they fail at the same place if they fail. On the way the
first one may have failed elsewhere, but not beyond the second one or the floor. -/
structure SameCourse {α β : Type} (a : Attempt Goal α) (b : Attempt Goal β) (floor : Nat) :
    Prop where
  stop : a.result.map Prod.snd = b.result.map Prod.snd
  le : a.frontier.offset ≤ max floor b.frontier.offset
  eq : a.result = none → a.frontier.offset = b.frontier.offset

namespace SameCourse

theorem result_eq_none {α β : Type} {a : Attempt Goal α} {b : Attempt Goal β} {floor : Nat}
    (h : SameCourse a b floor) : a.result = none ↔ b.result = none := by
  rw [← Option.map_eq_none_iff (f := Prod.snd), h.stop, Option.map_eq_none_iff]

variable {r : Rule} {k : TokenKind} {parts : List Part} {c : Cursor} {taken left : List Char}

theorem offset_le (c : Cursor) (taken left : List Char) :
    c.offset ≤ (skipTrivia (c.advance taken left)).offset := by
  have hskip := (reaches_skipTrivia (c.advance taken left)).offset_le
  exact Nat.le_trans (Nat.le_add_right c.offset _) hskip

theorem floor_le (hr : r.production = .sequence (.one (.token k) :: parts))
    (hmem : Symbol.rule r ∈ openers) {d : Cursor} (h : (matchParts parts d).result = none) :
    (skipTrivia d).offset ≤ (matchParts parts d).frontier.offset := by
  rcases Rule.production_guarded (openers_full _ hmem) with ⟨options, hchoice⟩ | ⟨ss, hss, -⟩
  · rw [hr] at hchoice
    cases hchoice
  · rw [hr] at hss
    obtain ⟨s, ss, rfl, -, rfl⟩ := List.map_eq_cons_iff.1 (Production.sequence.inj hss).symm
    exact floor_le_of_refused h

theorem of_opener (hr : r.production = .sequence (.one (.token k) :: parts))
    (hmem : Symbol.rule r ∈ openers) (hc : Settled c)
    (hcut : k.lexeme c.rest = some (taken, left)) :
    SameCourse (matchAt r c) (matchParts parts (c.advance taken left))
      (skipTrivia (c.advance taken left)).offset := by
  have hreach := reach_opener hr hc hcut
  have hfloor := offset_le c taken left
  have hstop := stop_opener hr hc hcut
  refine ⟨hstop, ?_, fun hnone => ?_⟩
  · have hle : (matchAt r c).frontier.offset ≤ reach (.rule r) c := Nat.le_max_right _ _
    omega
  · rw [hnone] at hstop
    have hlater := floor_le hr hmem (Option.map_eq_none_iff.1 hstop.symm)
    have heq := reach_of_refused (not_accepts_iff.2 hnone)
    omega

/-- A form takes the course of what stands behind the token that it opens with, if no other opener
that is tried is matched or tried further. -/
theorem of_form (hr : r.production = .sequence (.one (.token k) :: parts))
    (hmem : Symbol.rule r ∈ openers) (hc : Settled c) (hcut : k.lexeme c.rest = some (taken, left))
    (hothers : ∀ x ∈ openers, x ≠ .rule r → (∀ y ∈ openers.takeWhile (· ≠ x), ¬ Accepts y c) →
      ¬ Accepts x c ∧ reach x c ≤ max (skipTrivia (c.advance taken left)).offset
        (matchParts parts (c.advance taken left)).frontier.offset) :
    SameCourse (matchAt .form c) (matchParts parts (c.advance taken left))
      (skipTrivia (c.advance taken left)).offset := by
  have hreach := reach_opener hr hc hcut
  have hfloor := offset_le c taken left
  have hfirst : leavesAt (.rule .form) c = leavesAt (.rule r) c := by
    rw [leavesAt_form]
    cases hfound : openers.findSome? fun s => leavesAt s c with
    | none => exact (List.findSome?_eq_none_iff.1 hfound _ hmem).symm
    | some found =>
      obtain ⟨s, hs, hsome, hnone⟩ := exists_first_of_findSome? hfound
      have hearlier : ∀ y ∈ openers.takeWhile (· ≠ s), ¬ Accepts y c := by
        intro y hy
        rw [Accepts, hnone y hy]
        exact Bool.false_ne_true
      by_cases hsr : s = .rule r
      · rw [← hsr, hsome]
      · exact absurd (by rw [Accepts, hsome]; rfl) (hothers s hs hsr hearlier).1
  have hstop : (matchAt .form c).result.map Prod.snd =
      (matchParts parts (c.advance taken left)).result.map Prod.snd := by
    have hstops := congrArg (Option.map Prod.snd) hfirst
    rw [leavesAt, leavesAt, Option.map_map, Option.map_map] at hstops
    exact (hstops :).trans (stop_opener hr hc hcut)
  have hle : (matchAt .form c).frontier.offset ≤ max (skipTrivia (c.advance taken left)).offset
      (matchParts parts (c.advance taken left)).frontier.offset := by
    have htop : (matchAt .form c).frontier.offset ≤ reach (.rule .form) c := Nat.le_max_right _ _
    refine Nat.le_trans htop ?_
    rw [reach_form]
    refine reachFirst_le (by omega) fun x hx hearlier => ?_
    by_cases hxr : x = .rule r
    · rw [hxr, hreach]
      omega
    · exact (hothers x hx hxr hearlier).2
  refine ⟨hstop, hle, fun hnone => ?_⟩
  have hform : ¬ Accepts (.rule .form) c := not_accepts_iff.2 hnone
  have hrefused : ∀ x ∈ openers, ¬ Accepts x c := fun x hx haccepts =>
    hform (accepts_form_iff.2 ⟨x, hx, haccepts⟩)
  have hge := reach_le_reachFirst hrefused _ hmem
  rw [hnone] at hstop
  have hlater := floor_le hr hmem (Option.map_eq_none_iff.1 hstop.symm)
  rw [← reach_form, ← reach_of_refused hform, hreach] at hge
  omega

theorem of_alone (hr : r.production = .sequence (.one (.token k) :: parts))
    (hmem : Symbol.rule r ∈ openers) (honly : ∀ x ∈ openers, k ∈ x.leads → x = .rule r)
    (hc : Settled c) (hcut : k.lexeme c.rest = some (taken, left))
    (hk : candidates c.rest = [k]) :
    SameCourse (matchAt .form c) (matchParts parts (c.advance taken left))
      (skipTrivia (c.advance taken left)).offset := by
  refine of_form hr hmem hc hcut fun x hx hxr _ => ?_
  obtain ⟨s, j, more, rfl, hs, hleads, -⟩ := openers_production hx
  have hnone : j.lexeme c.rest = none := by
    by_contra hsome
    obtain rfl := eq_of_candidates hk (Option.isSome_iff_ne_none.2 hsome)
    exact hxr (honly _ hx (by rw [hleads]; exact List.mem_singleton_self _))
  obtain ⟨hrefused, hreach⟩ := refused_opener hs hc hnone
  have hfloor := offset_le c taken left
  exact ⟨hrefused, by omega⟩

end SameCourse
end HiccupReader.Clojure
