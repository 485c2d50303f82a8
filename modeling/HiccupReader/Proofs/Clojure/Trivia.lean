import HiccupReader.Clojure.Matching
import HiccupReader.Proofs.Matching.Cursor

/-! Trivia as a language of its own, and what is skipped before a token: a string of it, after
which no more trivia stands. -/

namespace HiccupReader.Clojure

open Matching

def commentMarks : List (List Char) := [[';'], ['#', '!']]

/-- Blanks and comments. A comment goes on up to the end of a line, and only where the text is at
its end (`last`) may it go on to there. -/
inductive Trivia (last : Prop) : List Char → Prop
  | none : Trivia last []
  | blank {c : Char} {cs : List Char} : isBlank c = true → Trivia last cs → Trivia last (c :: cs)
  | comment {mark body cs : List Char} {c : Char} : mark ∈ commentMarks →
    (∀ d ∈ body, isLineEnd d = false) → isLineEnd c = true → Trivia last cs →
      Trivia last (mark ++ body ++ c :: cs)
  | lastComment {mark body : List Char} : last → mark ∈ commentMarks →
    (∀ d ∈ body, isLineEnd d = false) → Trivia last (mark ++ body)

inductive CommentRest (last : Prop) : List Char → Prop
  | ended {body cs : List Char} {c : Char} : (∀ d ∈ body, isLineEnd d = false) →
    isLineEnd c = true → Trivia last cs → CommentRest last (body ++ c :: cs)
  | unended {body : List Char} : last → (∀ d ∈ body, isLineEnd d = false) →
    CommentRest last body

theorem CommentRest.cons {last : Prop} {cs : List Char} {c : Char} (hc : isLineEnd c = false)
    (h : CommentRest last cs) : CommentRest last (c :: cs) := by
  cases h with
  | ended hbody hend hcs =>
    exact .ended (List.forall_mem_cons.2 ⟨hc, hbody⟩) hend hcs
  | unended hlast hbody => exact .unended hlast (List.forall_mem_cons.2 ⟨hc, hbody⟩)

theorem Trivia.of_commentRest {last : Prop} {mark cs : List Char} (hm : mark ∈ commentMarks)
    (h : CommentRest last cs) : Trivia last (mark ++ cs) := by
  cases h with
  | ended hbody hend hcs =>
    rw [← List.append_assoc]
    exact .comment hm hbody hend hcs
  | unended hlast hbody => exact .lastComment hlast hm hbody

theorem CommentRest.tail {last : Prop} {cs : List Char} {c : Char} (hc : isLineEnd c = false)
    (h : CommentRest last (c :: cs)) : CommentRest last cs := by
  generalize htext : c :: cs = text at h
  cases h with
  | @ended body more d hbody hend hmore =>
    cases body with
    | nil =>
      obtain ⟨rfl, -⟩ := List.cons.inj htext
      rw [hc] at hend
      cases hend
    | cons e body =>
      obtain ⟨rfl, rfl⟩ := List.cons.inj htext
      exact .ended (fun d hd => hbody d (List.mem_cons_of_mem _ hd)) hend hmore
  | unended hlast hbody =>
    subst htext
    exact .unended hlast fun d hd => hbody d (List.mem_cons_of_mem _ hd)

theorem opensComment_iff (cs : List Char) :
    opensComment cs = true ↔ (∃ ds, cs = ';' :: ds) ∨ ∃ ds, cs = '#' :: '!' :: ds := by
  unfold opensComment
  split
  · simp
  · simp
  · next hsemi hbang =>
    simp only [Bool.false_eq_true, false_iff, not_or, not_exists]
    exact ⟨hsemi, hbang⟩

theorem trivia_splitTrivia_aux (inComment : Bool) (cs : List Char) :
    (inComment = true →
      CommentRest ((splitTrivia inComment cs).2 = []) (splitTrivia inComment cs).1) ∧
    (inComment = false →
      Trivia ((splitTrivia inComment cs).2 = []) (splitTrivia inComment cs).1) := by
  fun_induction splitTrivia inComment cs with
  | case1 inComment => exact ⟨fun _ => .unended rfl (by simp), fun _ => .none⟩
  | case2 c cs ih =>
    refine ⟨fun _ => ?_, fun h => by cases h⟩
    by_cases hc : isLineEnd c = true
    · have hnil : ∀ d ∈ ([] : List Char), isLineEnd d = false := by simp
      exact .ended hnil hc (ih.2 (by simp [hc]))
    · exact (ih.1 (by simp [hc])).cons (by simpa using hc)
  | case3 inComment c cs hopen hblank ih =>
    exact ⟨fun h => absurd h hopen, fun _ => .blank hblank (ih.2 rfl)⟩
  | case4 inComment c cs hopen _ hmark ih =>
    refine ⟨fun h => absurd h hopen, fun _ => ?_⟩
    have hrest := ih.1 rfl
    rcases (opensComment_iff (c :: cs)).1 hmark with ⟨ds, h⟩ | ⟨ds, h⟩ <;>
      obtain ⟨rfl, rfl⟩ := List.cons.inj h
    · have hm : [';'] ∈ commentMarks := by decide
      exact .of_commentRest hm hrest
    · -- The comment is open after the hash sign, and reads the rest of its mark as its text.
      have hm : ['#', '!'] ∈ commentMarks := by decide
      exact .of_commentRest hm (CommentRest.tail (by decide) hrest)
  | case5 inComment c cs hopen => exact ⟨fun h => absurd h hopen, fun _ => .none⟩

theorem trivia_splitTrivia (cs : List Char) :
    Trivia ((splitTrivia false cs).2 = []) (splitTrivia false cs).1 :=
  (trivia_splitTrivia_aux false cs).2 rfl

theorem splitTrivia_splitTrivia (inComment : Bool) (cs : List Char) :
    splitTrivia false (splitTrivia inComment cs).2 = ([], (splitTrivia inComment cs).2) := by
  fun_induction splitTrivia inComment cs with
  | case1 => rfl
  | case2 c cs ih => exact ih
  | case3 inComment c cs _ _ ih => exact ih
  | case4 inComment c cs _ _ _ ih => exact ih
  | case5 inComment c cs _ hblank hmark => simp [splitTrivia, hblank, hmark]

theorem splitTrivia_length_le (inComment : Bool) (cs : List Char) :
    (splitTrivia inComment cs).2.length ≤ cs.length := by
  have hlength := congrArg List.length (splitTrivia_append inComment cs)
  rw [List.length_append] at hlength
  omega

theorem splitTrivia_cons_iff {c : Char} {cs : List Char} :
    (splitTrivia false (c :: cs)).2 = c :: cs ↔
      isBlank c = false ∧ opensComment (c :: cs) = false := by
  have shorter : ∀ inComment, (splitTrivia inComment cs).2 ≠ c :: cs := by
    intro inComment h
    have hle := splitTrivia_length_le inComment cs
    rw [h, List.length_cons] at hle
    omega
  cases hblank : isBlank c <;> cases hmark : opensComment (c :: cs) <;>
    simp [splitTrivia, hblank, hmark, shorter]

theorem splitTrivia_comment {body cs : List Char} {c : Char}
    (hbody : ∀ d ∈ body, isLineEnd d = false) (hc : isLineEnd c = true) :
    (splitTrivia true (body ++ c :: cs)).2 = (splitTrivia false cs).2 := by
  induction body with
  | nil => simp [splitTrivia, hc]
  | cons d body ih =>
    obtain ⟨hd, hbody⟩ := List.forall_mem_cons.1 hbody
    simpa [splitTrivia, hd] using ih hbody

theorem Trivia.splitTrivia_append {gap : List Char} (h : Trivia False gap) (cs : List Char) :
    (splitTrivia false (gap ++ cs)).2 = (splitTrivia false cs).2 := by
  induction h with
  | none => rfl
  | blank hc _ ih => simpa [splitTrivia, hc] using ih
  | @comment mark body more c hm hbody hc _ ih =>
    rw [← ih, List.append_assoc, List.append_assoc, List.cons_append]
    simp only [commentMarks, List.mem_cons, List.not_mem_nil, or_false] at hm
    -- The hash sign opens the comment already, so that the rest of its mark is read as text.
    rcases hm with rfl | rfl
    · exact splitTrivia_comment hbody hc
    · have hmarked : ∀ d ∈ '!' :: body, isLineEnd d = false :=
        List.forall_mem_cons.2 ⟨by decide, hbody⟩
      exact (splitTrivia_comment hmarked hc :)
  | lastComment hlast => exact hlast.elim

theorem Trivia.line {last : Prop} {gap : List Char} {e : Char} (h : Trivia last gap)
    (he : isLineEnd e = true) : Trivia False (gap ++ [e]) := by
  induction h with
  | none => exact .blank (by simp [isBlank, he]) .none
  | blank hc _ ih => exact .blank hc ih
  | comment hm hbody hc _ ih =>
    rw [List.append_assoc, List.cons_append]
    exact .comment hm hbody hc ih
  | lastComment _ hm hbody => exact .comment hm hbody he .none

theorem splitTrivia_gap {left : List Char} (h : (splitTrivia false left).2 ≠ []) (cs : List Char) :
    (splitTrivia false ((splitTrivia false left).1 ++ cs)).2 = (splitTrivia false cs).2 := by
  have hgap := trivia_splitTrivia left
  rw [eq_false h] at hgap
  exact hgap.splitTrivia_append cs

@[simp] theorem skipTrivia_skipTrivia (c : Cursor) :
    skipTrivia (skipTrivia c) = skipTrivia c := by
  simp [skipTrivia, splitTrivia_splitTrivia, Cursor.advance]

def Settled (c : Cursor) : Prop := skipTrivia c = c

theorem settled_iff {c : Cursor} : Settled c ↔ (splitTrivia false c.rest).2 = c.rest := by
  constructor
  · exact congrArg Cursor.rest
  · intro h
    have happend := splitTrivia_append false c.rest
    rw [h, List.append_left_eq_self] at happend
    rw [Settled, skipTrivia, h, happend]
    rfl

theorem settled_skipTrivia (c : Cursor) : Settled (skipTrivia c) := skipTrivia_skipTrivia c

theorem reaches_skipTrivia (c : Cursor) : c.Reaches (skipTrivia c) :=
  c.reaches_advance (splitTrivia_append false c.rest)

theorem Settled.of_rest_cons {c : Cursor} {d : Char} {cs : List Char} (h : c.rest = d :: cs)
    (hblank : isBlank d = false) (hmark : opensComment (d :: cs) = false) : Settled c := by
  obtain ⟨offset, rest⟩ := c
  cases h
  simp [Settled, skipTrivia, splitTrivia, hblank, hmark, Cursor.advance]

theorem Settled.of_rest_nil {c : Cursor} (h : c.rest = []) : Settled c := by
  obtain ⟨offset, rest⟩ := c
  cases h
  rfl

end HiccupReader.Clojure
