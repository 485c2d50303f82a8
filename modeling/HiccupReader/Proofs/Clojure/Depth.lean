import HiccupReader.Proofs.Clojure.Lexeme
import HiccupReader.Proofs.Clojure.Reading
import HiccupReader.Proofs.Clojure.Trivia

/-! The depth that is allowed to a match plays no part. Few rules follow each other without taking
a character, so that a depth in proportion to the text is never used up, and matching obeys its
own equation without any depth. -/

namespace HiccupReader.Clojure

open Matching

def Part.symbols : Part → List Symbol
  | .one s => [s]
  | .many options => options
  | .finish => []

section

variable {R S : Reading} (step : ∀ {s c t c'}, R s c t c' → c.Reaches c')

include step

theorem Items.reaches {options : List Symbol} {c c' : Cursor} {ts : List Tree}
    (h : Items R options c ts c') : c.Reaches c' := by
  induction h with
  | done c => exact .refl c
  | item _ hread _ ih => exact ((reaches_skipTrivia _).trans (step hread)).trans ih

theorem Sequenced.reaches {parts : List Part} {c c' : Cursor} {ts : List Tree}
    (h : Sequenced R parts c ts c') : c.Reaches c' := by
  induction h with
  | done c => exact .refl c
  | one hread _ ih => exact ((reaches_skipTrivia _).trans (step hread)).trans ih
  | many hitems _ ih => exact ((reaches_skipTrivia _).trans (hitems.reaches step)).trans ih
  | finish _ _ ih => exact (reaches_skipTrivia _).trans ih

theorem Items.imp {options : List Symbol} {c c' : Cursor} {ts : List Tree}
    (himp : ∀ {s d t d'}, s ∈ options → c.Reaches d → Settled d → R s d t d' → S s d t d')
    (h : Items R options c ts c') : Items S options c ts c' := by
  induction h with
  | done c => exact .done c
  | @item s c c₁ c₂ t ts hs hread _ ih =>
    have hskip := reaches_skipTrivia c
    refine .item hs (himp hs hskip (settled_skipTrivia c) hread) (ih ?_)
    intro s d t d' hmem hreach
    exact himp hmem ((hskip.trans (step hread)).trans hreach)

theorem Sequenced.imp {parts : List Part} {c c' : Cursor} {ts : List Tree}
    (himp : ∀ {s d t d'}, (∃ part ∈ parts, s ∈ part.symbols) → c.Reaches d → Settled d →
      R s d t d' → S s d t d')
    (h : Sequenced R parts c ts c') : Sequenced S parts c ts c' := by
  induction h with
  | done c => exact .done c
  | @one s parts c c₁ c₂ t ts hread _ ih =>
    have hskip := reaches_skipTrivia c
    have hs : ∃ part ∈ Part.one s :: parts, s ∈ part.symbols :=
      ⟨.one s, List.mem_cons_self .., List.mem_singleton_self s⟩
    refine .one (himp hs hskip (settled_skipTrivia c) hread) (ih ?_)
    rintro s d t d' ⟨part, hpart, hmem⟩ hreach
    exact himp ⟨part, List.mem_cons_of_mem _ hpart, hmem⟩ ((hskip.trans (step hread)).trans hreach)
  | @many options parts c c₁ c₂ ts us hitems _ ih =>
    have hskip := reaches_skipTrivia c
    refine .many (hitems.imp step ?_) (ih ?_)
    · intro s d t d' hmem hreach
      exact himp ⟨.many options, List.mem_cons_self .., hmem⟩ (hskip.trans hreach)
    · rintro s d t d' ⟨part, hpart, hmem⟩ hreach
      exact himp ⟨part, List.mem_cons_of_mem _ hpart, hmem⟩
        ((hskip.trans (hitems.reaches step)).trans hreach)
  | @finish parts c c' ts hend _ ih =>
    refine .finish hend (ih ?_)
    rintro s d t d' ⟨part, hpart, hmem⟩ hreach
    exact himp ⟨part, List.mem_cons_of_mem _ hpart, hmem⟩ ((reaches_skipTrivia c).trans hreach)

theorem Produced.reaches {p : Production} {c c' : Cursor} {ts : List Tree}
    (h : Produced R p c ts c') : c.Reaches c' := by
  cases h with
  | sequence hparts => exact hparts.reaches step
  | choice _ hread => exact step hread

end

theorem reaches_of_lexeme {k : TokenKind} {c : Cursor} {taken left : List Char}
    (h : k.lexeme c.rest = some (taken, left)) : c.Reaches (c.advance taken left) :=
  c.reaches_advance (k.lexeme_cuts c.rest taken left h)

theorem length_lt_of_lexeme {k : TokenKind} {c : Cursor} {taken left : List Char}
    (h : k.lexeme c.rest = some (taken, left)) :
    (c.advance taken left).rest.length < c.rest.length := by
  have htake : 0 < taken.length := List.length_pos_iff.2 (k.lexeme_takes _ _ _ h)
  have hcuts : taken.length + left.length = c.rest.length := by
    rw [← List.length_append, k.lexeme_cuts _ _ _ h]
  rw [Cursor.advance_rest]
  omega

theorem length_skipTrivia_lt_of_lexeme {k : TokenKind} {c : Cursor} {taken left : List Char}
    (h : k.lexeme c.rest = some (taken, left)) :
    (skipTrivia (c.advance taken left)).rest.length < c.rest.length :=
  Nat.lt_of_le_of_lt (reaches_skipTrivia _).length_le (length_lt_of_lexeme h)

theorem offset_lt_of_lexeme {k : TokenKind} {c : Cursor} {taken left : List Char}
    (h : k.lexeme c.rest = some (taken, left)) : c.offset < (c.advance taken left).offset := by
  have htake : 0 < taken.length := List.length_pos_iff.2 (k.lexeme_takes _ _ _ h)
  exact Nat.lt_add_of_pos_right (Nat.lt_of_lt_of_le htake (Text.length_le_byteLength taken))

theorem reaches_of_matchRule {depth : Nat} {r : Rule} {c c' : Cursor} {t : Tree}
    (h : (matchRule depth r c).result = some (t, c')) : c.Reaches c' := by
  apply reading_of_matchRule (R := fun _ c _ c' => c.Reaches c') _ _ h
  · intro k c taken left hcut
    exact reaches_of_lexeme hcut
  · intro r c ts c' hparts
    exact hparts.reaches id

/-- How many rules can follow each other from here before a character is taken. -/
def Rule.height : Rule → Nat
  | code => 5
  | forms => 4
  | form => 3
  | collection | readerMacro | literal => 2
  | _ => 1

def Symbol.height : Symbol → Nat
  | .rule r => r.height
  | .token _ => 0

/-- Everything in a production is lower than the bound, but for what stands behind a token. -/
def Production.Below (bound : Nat) : Production → Prop
  | .choice options => ∀ s ∈ options, s.height < bound
  | .sequence (.one (.token _) :: tail) => ∀ part ∈ tail, ∀ s ∈ part.symbols, s.height < 5
  | .sequence parts => ∀ part ∈ parts, ∀ s ∈ part.symbols, s.height < bound

theorem Rule.production_below (r : Rule) : r.production.Below r.height := by
  cases r <;>
    simp [production, Production.Below, Production.enclosed, Production.prefixed,
      Production.single, Part.symbols, Symbol.height, height]

theorem Rule.height_le (r : Rule) : r.height ≤ 5 := by
  cases r <;> decide

theorem Rule.height_pos (r : Rule) : 0 < r.height := by
  cases r <;> decide

theorem andThen_congr {α β : Type} {a : Attempt Goal α} {next next' : α → Matcher Goal β}
    (h : ∀ {value c}, a.result = some (value, c) → next value c = next' value c) :
    a.andThen next = a.andThen next' := by
  unfold Attempt.andThen
  split
  · next value c hresult => rw [h hresult]
  · rfl

theorem firstOf_congr {options : List Symbol} {f g : Symbol → Matcher Goal Tree} {c : Cursor}
    (h : ∀ s ∈ options, f s c = g s c) :
    Matcher.firstOf (options.map f) c = Matcher.firstOf (options.map g) c := by
  induction options with
  | nil => rfl
  | cons s options ih =>
    rw [List.map_cons, List.map_cons, Matcher.firstOf, Matcher.firstOf,
      h s (List.mem_cons_self ..), ih fun s hs => h s (List.mem_cons_of_mem _ hs)]

structure AgreeBelow (bound : Nat) (f g : Rule → Matcher Goal Tree) : Prop where
  eq : ∀ {r c}, 5 * c.rest.length + r.height < bound → f r c = g r c
  reaches : ∀ {r c t c'}, (f r c).result = some (t, c') → c.Reaches c'

namespace AgreeBelow

variable {bound : Nat} {f g : Rule → Matcher Goal Tree} (h : AgreeBelow bound f g)

include h

theorem reaches_symbol {s : Symbol} {c c' : Cursor} {t : Tree}
    (hread : readingOf f s c t c') : c.Reaches c' := by
  cases s with
  | rule r => exact h.reaches hread
  | token k =>
    obtain ⟨taken, left, hcut, rfl, rfl⟩ := readingOf_token_iff.1 hread
    exact reaches_of_lexeme hcut

theorem matchSymbol_eq {s : Symbol} {c : Cursor} (hs : 5 * c.rest.length + s.height < bound) :
    matchSymbol f s c = matchSymbol g s c := by
  cases s with
  | rule r => exact h.eq hs
  | token k => rfl

theorem firstOf_eq {options : List Symbol} {c : Cursor}
    (hs : ∀ s ∈ options, 5 * c.rest.length + s.height < bound) :
    Matcher.firstOf (options.map (matchSymbol f)) c =
      Matcher.firstOf (options.map (matchSymbol g)) c :=
  firstOf_congr fun s hmem => h.matchSymbol_eq (hs s hmem)

theorem repeated_eq {options : List Symbol} {limit : Nat} {c : Cursor}
    (hs : ∀ s ∈ options, 5 * c.rest.length + s.height < bound) :
    Matcher.repeated skipTrivia (Matcher.firstOf (options.map (matchSymbol f))) limit c =
      Matcher.repeated skipTrivia (Matcher.firstOf (options.map (matchSymbol g))) limit c := by
  induction limit generalizing c with
  | zero => rfl
  | succ limit ih =>
    have hskip := (reaches_skipTrivia c).length_le
    have hbound : ∀ s ∈ options, 5 * (skipTrivia c).rest.length + s.height < bound := by
      intro s hmem
      have := hs s hmem
      omega
    have hfirst := h.firstOf_eq hbound
    rw [Matcher.repeated, Matcher.repeated, ← hfirst]
    split
    · rfl
    · next t c₁ hresult =>
      rw [Matcher.result_firstOf] at hresult
      obtain ⟨s, -, hread⟩ := List.exists_of_findSome?_eq_some hresult
      have hlen := (h.reaches_symbol hread).length_le
      rw [ih fun s hmem => by have := hs s hmem; omega]

theorem matchPart_eq {part : Part} {c : Cursor}
    (hs : ∀ s ∈ part.symbols, 5 * c.rest.length + s.height < bound) :
    matchPart f part c = matchPart g part c := by
  cases part with
  | one s => rw [matchPart, matchPart, h.matchSymbol_eq (hs s (List.mem_singleton_self s))]
  | many options => exact h.repeated_eq hs
  | finish => rfl

theorem reaches_part {part : Part} {c c' : Cursor} {ts : List Tree}
    (hresult : (matchPart f part c).result = some (ts, c')) : c.Reaches c' := by
  cases part with
  | one s =>
    rw [result_matchPart_one] at hresult
    obtain ⟨⟨t, c₁⟩, hread, he⟩ := Option.map_eq_some_iff.1 hresult
    obtain ⟨rfl, rfl⟩ := Prod.mk.inj he
    exact h.reaches_symbol hread
  | many options => exact (items_of_repeated hresult).reaches h.reaches_symbol
  | finish =>
    rw [result_matchPart_finish] at hresult
    split at hresult
    · obtain ⟨rfl, rfl⟩ := Prod.mk.inj (Option.some.inj hresult)
      exact .refl c
    · cases hresult

theorem inOrder_eq {parts : List Part} {c : Cursor}
    (hs : ∀ part ∈ parts, ∀ s ∈ part.symbols, 5 * c.rest.length + s.height < bound) :
    Matcher.inOrder skipTrivia (parts.map (matchPart f)) c =
      Matcher.inOrder skipTrivia (parts.map (matchPart g)) c := by
  induction parts generalizing c with
  | nil => rfl
  | cons part parts ih =>
    have hskip := (reaches_skipTrivia c).length_le
    have hpart : matchPart f part (skipTrivia c) = matchPart g part (skipTrivia c) :=
      h.matchPart_eq fun s hmem => by
        have := hs part (List.mem_cons_self ..) s hmem
        omega
    rw [List.map_cons, List.map_cons, Matcher.inOrder, Matcher.inOrder, ← hpart]
    apply andThen_congr
    intro values c₁ hresult
    have hlen := (h.reaches_part hresult).length_le
    rw [ih fun part hpart s hmem => by
      have := hs part (List.mem_cons_of_mem _ hpart) s hmem
      omega]

theorem inOrder_token_eq {k : TokenKind} {tail : List Part} {c : Cursor}
    (hc : 5 * c.rest.length < bound)
    (hs : ∀ part ∈ tail, ∀ s ∈ part.symbols, s.height < 5) :
    Matcher.inOrder skipTrivia ((.one (.token k) :: tail).map (matchPart f)) c =
      Matcher.inOrder skipTrivia ((.one (.token k) :: tail).map (matchPart g)) c := by
  rw [List.map_cons, List.map_cons, Matcher.inOrder, Matcher.inOrder]
  apply andThen_congr
  intro values c₁ hresult
  -- Behind the token the rest is shorter, so that any rule may follow.
  have hlen : c₁.rest.length < c.rest.length := by
    rw [result_matchPart_one] at hresult
    obtain ⟨⟨t, c₂⟩, hread, he⟩ := Option.map_eq_some_iff.1 hresult
    obtain ⟨-, rfl⟩ := Prod.mk.inj he
    obtain ⟨taken, left, hcut, -, rfl⟩ := readingOf_token_iff.1 hread
    exact Nat.lt_of_lt_of_le (length_lt_of_lexeme hcut) (reaches_skipTrivia c).length_le
  rw [h.inOrder_eq fun part hpart s hmem => by
    have := hs part hpart s hmem
    omega]

theorem matchProduction_eq {p : Production} {height : Nat} {c : Cursor} (hp : p.Below height)
    (hheight : 0 < height) (hb : 5 * c.rest.length + height ≤ bound) :
    matchProduction f p c = matchProduction g p c := by
  unfold Production.Below at hp
  split at hp
  · next options =>
    rw [matchProduction, matchProduction, h.firstOf_eq fun s hmem => by have := hp s hmem; omega]
  · next k tail => exact h.inOrder_token_eq (by omega) hp
  · next parts _ =>
    exact h.inOrder_eq fun part hpart s hmem => by
      have := hp part hpart s hmem
      omega

end AgreeBelow

theorem matchRule_eq_matchRule {depth depth' : Nat} {r : Rule} {c : Cursor}
    (h : 5 * c.rest.length + r.height ≤ depth) (h' : 5 * c.rest.length + r.height ≤ depth') :
    matchRule depth r c = matchRule depth' r c := by
  have hpos := r.height_pos
  induction depth generalizing depth' r c with
  | zero => omega
  | succ depth ih =>
    obtain ⟨depth', rfl⟩ := Nat.exists_eq_succ_of_ne_zero (by omega : depth' ≠ 0)
    -- Whatever the production needs lies below the bound, where one depth less suffices.
    have agree : AgreeBelow (5 * c.rest.length + r.height) (matchRule depth) (matchRule depth') :=
      ⟨fun {s d} hlt => ih (by omega) (by omega) s.height_pos, reaches_of_matchRule⟩
    rw [matchRule, matchRule, agree.matchProduction_eq r.production_below hpos Nat.le.refl]

def matchAt (r : Rule) : Matcher Goal Tree := fun c =>
  matchRule (5 * c.rest.length + r.height) r c

theorem matchRule_eq_matchAt {depth : Nat} {r : Rule} {c : Cursor}
    (h : 5 * c.rest.length + r.height ≤ depth) : matchRule depth r c = matchAt r c :=
  matchRule_eq_matchRule h Nat.le.refl

theorem matchAt_eq (r : Rule) (c : Cursor) :
    matchAt r c =
      ((matchProduction matchAt r.production c).andThen fun children stop =>
        .success (.node ⟨r.index, c.offset, stop.offset⟩ children) stop).aimedAt
          (.symbol (.rule r)) c.offset := by
  have hpos := r.height_pos
  obtain ⟨depth, hdepth⟩ := Nat.exists_eq_succ_of_ne_zero
    (by omega : 5 * c.rest.length + r.height ≠ 0)
  have agree : AgreeBelow (5 * c.rest.length + r.height) (matchRule depth) matchAt :=
    ⟨fun hlt => matchRule_eq_matchAt (by omega), reaches_of_matchRule⟩
  rw [matchAt, hdepth, matchRule, agree.matchProduction_eq r.production_below hpos Nat.le.refl]

theorem matchText_eq_matchAt (r : Rule) (text : List Char) :
    matchText r text = matchAt r (.start text) := by
  have hle := r.height_le
  apply matchRule_eq_matchAt
  show 5 * text.length + r.height ≤ _
  omega

theorem result_matchAt (r : Rule) (c : Cursor) :
    (matchAt r c).result =
      (matchProduction matchAt r.production c).result.map fun found =>
        (.node ⟨r.index, c.offset, found.2.offset⟩ found.1, found.2) := by
  rw [matchAt_eq, Attempt.result_aimedAt, Attempt.result_andThen, Option.map_eq_bind]
  rfl

theorem reading_of_production {r : Rule} {c c' : Cursor} {ts : List Tree}
    (h : (matchProduction matchAt r.production c).result = some (ts, c')) :
    readingOf matchAt (.rule r) c (.node ⟨r.index, c.offset, c'.offset⟩ ts) c' := by
  rw [readingOf, matchSymbol, result_matchAt, h]
  rfl

theorem produced_of_reading {r : Rule} {c c' : Cursor} {t : Tree}
    (h : readingOf matchAt (.rule r) c t c') :
    ∃ ts, Produced (readingOf matchAt) r.production c ts c' ∧
      t = .node ⟨r.index, c.offset, c'.offset⟩ ts := by
  rw [readingOf, matchSymbol, result_matchAt] at h
  obtain ⟨⟨ts, c₁⟩, hparts, he⟩ := Option.map_eq_some_iff.1 h
  obtain ⟨rfl, rfl⟩ := Prod.mk.inj he
  exact ⟨ts, produced_of_matchProduction hparts, rfl⟩

theorem reading_of_matchAt {R : Reading}
    (token : ∀ {k c taken left}, k.lexeme c.rest = some (taken, left) →
      R (.token k) c (.leaf (k.token c taken)) (c.advance taken left))
    (node : ∀ {r c ts c'}, Produced R r.production c ts c' →
      R (.rule r) c (.node ⟨r.index, c.offset, c'.offset⟩ ts) c')
    {s : Symbol} {c c' : Cursor} {t : Tree} (h : readingOf matchAt s c t c') : R s c t c' := by
  cases s with
  | rule r => exact reading_of_matchRule token node h
  | token k =>
    obtain ⟨taken, left, hcut, rfl, rfl⟩ := readingOf_token_iff.1 h
    exact token hcut

theorem reaches_of_reading {s : Symbol} {c c' : Cursor} {t : Tree}
    (h : readingOf matchAt s c t c') : c.Reaches c' := by
  apply reading_of_matchAt (R := fun _ c _ c' => c.Reaches c') _ _ h
  · intro k c taken left hcut
    exact reaches_of_lexeme hcut
  · intro r c ts c' hparts
    exact hparts.reaches id

end HiccupReader.Clojure
