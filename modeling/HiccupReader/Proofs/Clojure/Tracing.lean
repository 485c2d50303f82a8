import HiccupReader.Proofs.Clojure.Finishing
import HiccupReader.Proofs.Clojure.Following

/-! The frontier of a refused text is the place where its tokens are blocked. This holds of each
form by induction on what is left of the text, and of a sequence if it holds of its parts. -/

namespace HiccupReader.Clojure

open Matching

def Ends (c : Cursor) : Prop := c.rest = [] ∨ ∃ k ∈ closers, Decided k c.rest

inductive Tried (c : Cursor) : Prop
  | form {k : TokenKind} : Decided k c.rest → k ∉ closers →
    (∀ st, Pending.Open st → Traces (matchAt .form c) st (Pending.complete st) c) → Tried c
  | ends : Ends c → (matchAt .form c).result = none →
    (matchAt .form c).frontier.offset = c.offset → Tried c

theorem Decided.preferred_of_closer {k : TokenKind} {cs : List Char} (h : Decided k cs)
    (hk : k ∈ closers) : k.Preferred cs :=
  h.settles.preferred_of_closer hk

theorem Decided.eq_of_closer {k j : TokenKind} {cs : List Char} (h : Decided k cs)
    (hk : k ∈ closers) (hj : (j.lexeme cs).isSome) : j = k := by
  have alone : ∀ k ∈ closers, k.rivals = [] := by decide
  rcases (h.preferred_of_closer hk).eq_or_mem_rivals hj with hjk | hrival
  · exact hjk
  · rw [alone k hk] at hrival
    cases hrival

theorem Decided.lexeme_closer {k j : TokenKind} {cs : List Char} (h : Decided k cs)
    (hk : k ∉ closers) (hj : j ∈ closers) : j.lexeme cs = none := by
  cases hcut : j.lexeme cs with
  | none => rfl
  | some found =>
    have hpreferred : j.Preferred cs :=
      .of_unrivalled (fun p => (closers_unrivalled p).2 j hj) (by rw [hcut]; rfl)
    have hnot : ¬ Rereads cs := by
      intro hrereads
      obtain rfl := hpreferred.unique hrereads.discard_preferred
      exact absurd hj (by decide)
    obtain rfl := h.unique (.inr ⟨hnot, hpreferred⟩)
    exact absurd hj hk

theorem Ends.lexeme_opener {c : Cursor} (h : Ends c) {x : Symbol} (hx : x ∈ openers)
    {j : TokenKind} (hj : j ∈ x.leads) : j.lexeme c.rest = none := by
  have avoid : ∀ x ∈ openers, ∀ j ∈ x.leads, j ∉ closers := by decide
  rcases h with hnil | ⟨k, hk, hdecided⟩
  · rw [hnil, j.lexeme_nil]
  · cases hcut : j.lexeme c.rest with
    | none => rfl
    | some found =>
      obtain rfl := hdecided.eq_of_closer hk (by rw [hcut]; rfl)
      exact absurd hk (avoid x hx j hj)

theorem Ends.tried {c : Cursor} (h : Ends c) (hc : Settled c) : Tried c := by
  have hopeners : ∀ x ∈ openers, ¬ Accepts x c ∧ reach x c = c.offset := by
    intro x hx
    obtain ⟨r, j, parts, rfl, hr, hleads, -⟩ := openers_production hx
    exact refused_opener hr hc (h.lexeme_opener hx (by rw [hleads]; exact List.mem_singleton_self j))
  have hrefused : ¬ Accepts (.rule .form) c := by
    intro haccepts
    obtain ⟨x, hx, hxc⟩ := accepts_form_iff.1 haccepts
    exact (hopeners x hx).1 hxc
  refine .ends h (not_accepts_iff.1 hrefused) ?_
  rw [reach_of_refused hrefused, reach_form]
  refine Nat.le_antisymm (reachFirst_le (Nat.le_refl _) fun x hx _ => ?_) (offset_le_reachFirst _ _)
  exact Nat.le_of_eq (hopeners x hx).2

theorem Ends.blocked {c : Cursor} (h : Ends c) {st : List Pending}
    (hst : ∀ b, st.head? ≠ some (.closing b)) : Blocked st c := by
  rcases h with hnil | ⟨k, hk, hdecided⟩
  · exact .inl hnil
  · refine .inr ⟨k, hdecided, ?_⟩
    by_cases hopen : Pending.Open st
    · obtain ⟨b, hb⟩ := exists_bracket_of_closer hk
      rw [Pending.follow_closing hb hopen, if_neg (hst b)]
    · refine Pending.follow_map (Classical.not_not.1 hopen) ?_
      rintro rfl
      exact absurd hk (by decide)

namespace Traces

variable {st st₁ st₂ : List Pending} {c d : Cursor}

theorem token {k : TokenKind} {taken left : List Char} (hk : Decided k c.rest)
    (hcut : k.lexeme c.rest = some (taken, left)) (hfollow : Pending.follow st k = some st₁) :
    Traces (matchToken k c) st st₁ c := by
  rw [matchToken, hcut]
  exact .of_some rfl (Nat.zero_le _) (.single hcut hk hfollow)

theorem token_failure {k : TokenKind} (hnone : k.lexeme c.rest = none) (h : Blocked st c) :
    Traces (matchToken k c) st st₁ c := by
  rw [matchToken, hnone]
  exact .failure h

theorem nil : Traces (matchParts [] d) st st (skipTrivia d) := .success rfl

theorem cons {s : Symbol} {parts : List Part}
    (h : Traces (matchSymbol matchAt s (skipTrivia d)) st st₁ (skipTrivia d))
    (hrest : ∀ {e}, Follows Decided st (skipTrivia d) st₁ (skipTrivia e) →
      Traces (matchParts parts e) st₁ st₂ (skipTrivia e)) :
    Traces (matchParts (.one s :: parts) d) st st₂ (skipTrivia d) := by
  rw [matchParts, List.map_cons, Matcher.inOrder]
  exact Traces.andThen (.map h) fun _ hfollows => .map (hrest hfollows)

end Traces

/-- What comes of looking for forms: all are traced up to where no form begins, or else the tokens
are stuck in one that is given up. -/
inductive FormsTried {α : Type} (a : Attempt Goal α) (st : List Pending) (c : Cursor) : Prop
  | ends {value : α} {e : Cursor} : a.result = some (value, e) → Ends (skipTrivia e) →
    Follows Decided st c st (skipTrivia e) → a.frontier.offset ≤ (skipTrivia e).offset →
      FormsTried a st c
  | stuck {value : α} {e : Cursor} {k : TokenKind} : a.result = some (value, e) →
    Decided k (skipTrivia e).rest → k ∉ closers → (skipTrivia e).offset ≤ a.frontier.offset →
      Stuck st c a.frontier.offset → FormsTried a st c

namespace FormsTried

variable {α β : Type} {a : Attempt Goal α} {b : Attempt Goal β} {st st' : List Pending}
  {c c₁ : Cursor}

theorem of_follows (h : FormsTried a st c₁) (hfollows : Follows Decided st c st c₁) {earlier : Nat}
    (hearlier : earlier ≤ c₁.offset) (hstop : b.result.map Prod.snd = a.result.map Prod.snd)
    (hoffset : b.frontier.offset = max earlier a.frontier.offset) : FormsTried b st c := by
  have result : ∀ {value e}, a.result = some (value, e) → ∃ value', b.result = some (value', e) := by
    intro value e hsome
    rw [hsome, Option.map_some] at hstop
    obtain ⟨⟨value', e'⟩, hb, he⟩ := Option.map_eq_some_iff.1 hstop
    obtain rfl : e' = e := he
    exact ⟨value', hb⟩
  cases h with
  | ends hsome hends hmore hle =>
    obtain ⟨value', hb⟩ := result hsome
    have hreach := hmore.reaches.offset_le
    exact .ends hb hends (hfollows.trans hmore) (by omega)
  | stuck hsome hk hcloser hle hstuck =>
    obtain ⟨value', hb⟩ := result hsome
    have hreach := hstuck.offset_le
    have hsame : b.frontier.offset = a.frontier.offset := by omega
    exact .stuck hb hk hcloser (by omega) (by rw [hsame]; exact .of_follows hfollows hstuck)

theorem andThen {next : α → Matcher Goal β} (h : FormsTried a st c)
    (hends : ∀ value e, Ends (skipTrivia e) → Traces (next value e) st st' (skipTrivia e))
    (hstuck : ∀ value e k, Decided k (skipTrivia e).rest → k ∉ closers →
      (next value e).result = none ∧ (next value e).frontier.offset = (skipTrivia e).offset) :
    Traces (a.andThen next) st st' c := by
  cases h with
  | @ends value e hsome hend hfollows hle =>
    have htrace : Traces a st st c := .of_some hsome hle hfollows
    refine htrace.andThen fun hsome' _ => ?_
    rw [hsome] at hsome'
    obtain ⟨rfl, rfl⟩ := Prod.mk.inj (Option.some.inj hsome')
    exact hends _ _ hend
  | @stuck value e k hsome hk hcloser hle hstuck' =>
    obtain ⟨hnone, hoffset⟩ := hstuck value e k hk hcloser
    have hbind : (a.andThen next).result = none := by
      rw [Attempt.result_andThen, hsome]
      exact hnone
    refine .of_none hbind ?_
    rw [Attempt.offset_andThen_of_some hsome, hoffset, Nat.max_eq_left hle]
    exact hstuck'

end FormsTried

def TriedBelow (length : Nat) : Prop :=
  ∀ c : Cursor, Settled c → Readable c → c.rest.length < length → Tried c

abbrev matchForms (limit : Nat) : Matcher Goal (List Tree) :=
  Matcher.repeated skipTrivia (Matcher.firstOf ([Symbol.rule .form].map (matchSymbol matchAt))) limit

section

variable {length : Nat} {st : List Pending} {c : Cursor}

theorem matchForms_succ (limit : Nat) (c : Cursor) :
    matchForms (limit + 1) c =
      match (matchAt .form (skipTrivia c)).result with
      | none => ⟨some ([], c), (matchAt .form (skipTrivia c)).frontier⟩
      | some (t, e) => ((matchForms limit e).andThen fun ts d => .success (t :: ts) d).after
          (matchAt .form (skipTrivia c)).frontier := by
  have hfirst : ∀ d, Matcher.firstOf ([Symbol.rule .form].map (matchSymbol matchAt)) d =
      matchAt .form d := Matcher.firstOf_singleton (matchAt .form)
  rw [matchForms, Matcher.repeated, hfirst]
  cases (matchAt .form (skipTrivia c)).result with
  | none => rfl
  | some found => rfl

theorem exists_matchForms {limit : Nat} (hlimit : c.rest.length < limit) :
    ∃ ts e, (matchForms limit c).result = some (ts, e) ∧
      ¬ Accepts (.rule .form) (skipTrivia e) := by
  induction limit generalizing c with
  | zero => omega
  | succ limit ih =>
    rw [matchForms_succ]
    split
    · next hnone => exact ⟨[], c, rfl, not_accepts_iff.2 hnone⟩
    · next t d hsome =>
      have hlt := length_lt_of_reading (s := .rule .form) hsome (settled_skipTrivia c) rfl
      have hle := (reaches_skipTrivia c).length_le
      obtain ⟨ts, e, hmore, hrefused⟩ := ih (c := d) (by omega)
      refine ⟨t :: ts, e, ?_, hrefused⟩
      rw [Attempt.result_after, Attempt.result_andThen, hmore]
      rfl

theorem exists_forms (hc : Settled c) : ∃ ts e,
    (matchForms (c.rest.length + 1) c).result = some (ts, e) ∧ ¬ Accepts (.rule .form) (skipTrivia e) ∧
      matchAt .forms c = ⟨some (.node ⟨Rule.forms.index, c.offset, e.offset⟩ ts, e),
        (matchForms (c.rest.length + 1) c).frontier⟩ := by
  obtain ⟨ts, e, hforms, hrefused⟩ := exists_matchForms (Nat.lt_succ_self c.rest.length)
  have hpart : (matchPart matchAt (.many [.rule .form]) c).result = some (ts, e) := hforms
  have hproduction : matchProduction matchAt Rule.forms.production c =
      ⟨some (ts, e), (matchForms (c.rest.length + 1) c).frontier⟩ := by
    rw [Rule.production, matchProduction, List.map_singleton, Matcher.inOrder, hc,
      Attempt.andThen_of_some hpart, Matcher.inOrder, Attempt.andThen_of_some rfl, List.append_nil]
    exact congrArg (Attempt.mk (some (ts, e))) (Frontier.join_start _)
  refine ⟨ts, e, hforms, hrefused, ?_⟩
  rw [matchAt_eq, hproduction, Attempt.andThen_of_some rfl, Attempt.aimedAt]
  exact congrArg (Attempt.mk _) (Frontier.join_start _)

theorem formsTried_of_repeated (htried : TriedBelow length) (hst : Pending.complete st = st)
    (hread : Readable (skipTrivia c)) (hc : c.rest.length < length) {limit : Nat}
    (hlimit : c.rest.length < limit) : FormsTried (matchForms limit c) st (skipTrivia c) := by
  have hopen : Pending.Open st := by
    rw [← hst]
    exact Pending.open_complete st
  induction limit generalizing c with
  | zero => omega
  | succ limit ih =>
    have hskip := (reaches_skipTrivia c).length_le
    have hform := htried (skipTrivia c) (settled_skipTrivia c) hread (by omega)
    cases hresult : (matchAt .form (skipTrivia c)).result with
    | none =>
      have hstop : (matchForms (limit + 1) c).result = some ([], c) := by
        rw [matchForms_succ, hresult]
      have hoffset : (matchForms (limit + 1) c).frontier.offset =
          (matchAt .form (skipTrivia c)).frontier.offset := by
        rw [matchForms_succ, hresult]
      cases hform with
      | form hk hcloser htraces =>
        have hstuck := (htraces st hopen).stuck hresult
        have hle := hstuck.offset_le
        exact .stuck hstop hk hcloser (by rwa [hoffset]) (by rwa [hoffset])
      | ends hends _ hfrontier =>
        exact .ends hstop hends (.done _ _) (Nat.le_of_eq (hoffset.trans hfrontier))
    | some found =>
      obtain ⟨t, d⟩ := found
      have hless : d.rest.length < c.rest.length := by
        have hlt := length_lt_of_reading (s := .rule .form) hresult (settled_skipTrivia c) rfl
        omega
      have hstop : (matchForms (limit + 1) c).result.map Prod.snd =
          (matchForms limit d).result.map Prod.snd := by
        rw [matchForms_succ, hresult, Attempt.result_after, Attempt.result_andThen]
        cases (matchForms limit d).result with
        | none => rfl
        | some found => rfl
      have hoffset : (matchForms (limit + 1) c).frontier.offset =
          max (matchAt .form (skipTrivia c)).frontier.offset
            (matchForms limit d).frontier.offset := by
        rw [matchForms_succ, hresult, Attempt.offset_after, Attempt.offset_andThen_success]
      cases hform with
      | ends _ hnone =>
        rw [hnone] at hresult
        cases hresult
      | form hk hcloser htraces =>
        obtain ⟨hle, hfollows⟩ := (htraces st hopen).reads hresult
        rw [hst] at hfollows
        have hread' := hfollows.readable (settled_skipTrivia c) hread
        -- The first form fails nowhere behind its end, so that the others decide on the frontier.
        exact (ih hread' (by omega) (by omega)).of_follows hfollows hle hstop hoffset

theorem formsTried (htried : TriedBelow length) (hst : Pending.complete st = st) (hc : Settled c)
    (hread : Readable c) (hlength : c.rest.length < length) :
    FormsTried (matchAt .forms c) st c := by
  have hforms := formsTried_of_repeated htried hst (by rwa [hc]) hlength (Nat.lt_succ_self _)
  rw [hc] at hforms
  obtain ⟨ts, e, hsome, -, heq⟩ := exists_forms hc
  refine hforms.of_follows (.done st c) (Nat.zero_le _) ?_ ?_
  · rw [heq, hsome]
    rfl
  · rw [heq, Nat.zero_max]

theorem formsTried_part (htried : TriedBelow length) (hst : Pending.complete st = st)
    (hread : Readable (skipTrivia c)) (hlength : (skipTrivia c).rest.length < length) :
    FormsTried (matchPart matchAt (.one (.rule .forms)) (skipTrivia c)) st (skipTrivia c) := by
  have hforms := formsTried htried hst (settled_skipTrivia c) hread hlength
  refine hforms.of_follows (.done _ _) (Nat.zero_le _) ?_ ?_
  · rw [result_matchPart_one, Option.map_map]
    rfl
  · rw [matchPart, Attempt.offset_andThen_success, Nat.zero_max]
    rfl

theorem refused_token_part {j : TokenKind} (hnone : j.lexeme (skipTrivia c).rest = none) :
    (matchParts [.one (.token j)] c).result = none ∧
      (matchParts [.one (.token j)] c).frontier.offset = (skipTrivia c).offset := by
  rw [refused_one_iff, offset_matchParts_one, not_accepts_iff, matchSymbol, matchToken, hnone]
  exact ⟨rfl, rfl⟩

theorem Ends.traces_closer {b : Bracket} {j : TokenKind} (h : Ends c)
    (hj : j.delimiter? = some (.closing b)) :
    Traces (matchToken j c) (.closing b :: st) (Pending.complete st) c := by
  have hopen : Pending.Open (.closing b :: st) := fun hmap => by cases hmap
  rcases h with hnil | ⟨k, hk, hdecided⟩
  · exact .token_failure (by rw [hnil, j.lexeme_nil]) (.inl hnil)
  · obtain ⟨b', hb'⟩ := exists_bracket_of_closer hk
    have hfollow := Pending.follow_closing hb' hopen
    cases hcut : j.lexeme c.rest with
    | some found =>
      obtain rfl := hdecided.eq_of_closer hk (by rw [hcut]; rfl)
      obtain rfl := Delimiter.closing.inj (Option.some.inj (hj.symm.trans hb'))
      rw [List.head?_cons, if_pos rfl] at hfollow
      exact .token hdecided hcut hfollow
    | none =>
      refine .token_failure hcut (.inr ⟨k, hdecided, ?_⟩)
      rw [hfollow, if_neg]
      intro hsame
      obtain rfl : b = b' := Pending.closing.inj (Option.some.inj hsame)
      obtain rfl : j = k := (eq_closer hj).trans (eq_closer hb').symm
      have haccepts := hdecided.accepts
      rw [hcut] at haccepts
      cases haccepts

theorem traces_enclosed (st : List Pending) (htried : TriedBelow length)
    (hread : Readable (skipTrivia c))
    (hlength : (skipTrivia c).rest.length < length) {b : Bracket} {j : TokenKind}
    (hj : j.delimiter? = some (.closing b)) (hcloser : j ∈ closers) :
    Traces (matchParts [.one (.rule .forms), .one (.token j)] c) (.closing b :: st)
      (Pending.complete st) (skipTrivia c) := by
  have hpart : FormsTried (matchPart matchAt (.one (.rule .forms)) (skipTrivia c))
      (.closing b :: st) (skipTrivia c) := formsTried_part htried rfl hread hlength
  rw [matchParts, List.map_cons, Matcher.inOrder]
  refine hpart.andThen (fun _ e hends => ?_) fun _ e k hk hnot => ?_
  · have hclose : Traces (matchParts [.one (.token j)] e) (.closing b :: st) (Pending.complete st)
        (skipTrivia e) := .cons (hends.traces_closer hj) fun _ => .nil
    exact .map hclose
  · obtain ⟨hnone, hoffset⟩ := refused_token_part (hk.lexeme_closer hnot hcloser)
    rw [Attempt.result_andThen, Attempt.offset_andThen_success]
    exact ⟨by rw [hnone]; rfl, hoffset⟩

theorem Tried.traces_awaited (h : Tried c) (more : Nat) :
    Traces (matchAt .form c) (.forms more :: st) (Pending.complete (.forms more :: st)) c := by
  cases h with
  | form _ _ htraces => exact htraces _ fun hmap => by cases hmap
  | ends hends hnone hoffset =>
    refine .of_none hnone ?_
    rw [hoffset]
    exact .here (hends.blocked fun b hb => by cases hb)

theorem traces_awaiting (htried : TriedBelow length) (hread : Readable (skipTrivia c))
    (hlength : (skipTrivia c).rest.length < length) (more : Nat) :
    Traces (matchParts (List.replicate (more + 1) (.one (.rule .form))) c) (.forms more :: st)
      (Pending.complete st) (skipTrivia c) := by
  induction more generalizing c with
  | zero =>
    have hform := htried (skipTrivia c) (settled_skipTrivia c) hread hlength
    exact .cons (hform.traces_awaited 0) fun _ => .nil
  | succ more ih =>
    have hform := htried (skipTrivia c) (settled_skipTrivia c) hread hlength
    rw [List.replicate_succ]
    refine .cons (hform.traces_awaited (more + 1)) fun hfollows => ?_
    have hread' := hfollows.readable (settled_skipTrivia c) hread
    have hle := hfollows.reaches.length_le
    exact ih hread' (by omega)

theorem decided_leftBrace {cs : List Char} (h : (TokenKind.leftBrace.lexeme cs).isSome) :
    Decided .leftBrace cs := by
  have hpreferred : TokenKind.leftBrace.Preferred cs :=
    .of_unrivalled (fun p => (closers_unrivalled p).1) h
  refine .inr ⟨fun hrereads => ?_, hpreferred⟩
  cases hpreferred.unique hrereads.discard_preferred

theorem traces_map (st : List Pending) (htried : TriedBelow length) (hread : Readable c)
    (hc : Settled c)
    (hlength : c.rest.length < length) :
    Traces (matchAt .map c) (.map :: st) (Pending.complete st) c := by
  cases hcut : TokenKind.leftBrace.lexeme c.rest with
  | some found =>
    obtain ⟨taken, left⟩ := found
    have hk : Decided .leftBrace c.rest := decided_leftBrace (by rw [hcut]; rfl)
    have hfollow : Pending.follow (.map :: st) .leftBrace = some (.closing .curly :: .map :: st) :=
      Pending.follow_opening rfl fun _ => rfl
    have hless := length_skipTrivia_lt_of_lexeme hcut
    have hinside : Traces (matchParts [.one (.rule .forms), .one (.token .rightBrace)]
        (c.advance taken left)) (.closing .curly :: .map :: st) (Pending.complete st)
          (skipTrivia (c.advance taken left)) :=
      traces_enclosed (.map :: st) htried (hread.advance hc hk hcut).skip (by omega) rfl
        (by decide)
    exact .of_course (.of_opener (r := .map) rfl (by decide) hc hcut) (.single hcut hk hfollow)
      hinside
  | none =>
    obtain ⟨hrefused, hreach⟩ := refused_opener (r := .map) rfl hc hcut
    rw [← reach_of_refused hrefused] at hreach
    have hnone : (matchAt .map c).result = none := not_accepts_iff.1 hrefused
    refine .of_none hnone ?_
    rw [hreach]
    refine .here ?_
    by_cases hnil : c.rest = []
    · exact .inl hnil
    · obtain ⟨k, taken, left, hk, hkcut⟩ := hread.exists_decided hc hnil
      refine .inr ⟨k, hk, Pending.follow_map rfl ?_⟩
      rintro rfl
      rw [hcut] at hkcut
      cases hkcut

theorem triedBelow (length : Nat) : TriedBelow length := by
  induction length with
  | zero => exact fun c _ _ hlt => by omega
  | succ length ih =>
    intro c hc hread hlt
    by_cases hnil : c.rest = []
    · exact Ends.tried (.inl hnil) hc
    obtain ⟨k, taken, left, hk, hcut⟩ := hread.exists_decided hc hnil
    by_cases hcloser : k ∈ closers
    · exact Ends.tried (.inr ⟨k, hcloser, hk⟩) hc
    obtain ⟨r, parts, hmem, hr, hopening, honly⟩ := exists_opening hcloser
    have hcourse := hk.course hread hc hr hmem honly hcut
    have hread' := (hread.advance hc hk hcut).skip
    -- Behind the token there is less, so that the induction hypothesis covers all its parts.
    have hless : (skipTrivia (c.advance taken left)).rest.length < length :=
      Nat.lt_of_lt_of_le (length_skipTrivia_lt_of_lexeme hcut) (Nat.le_of_lt_succ hlt)
    refine .form hk hcloser fun st hopen => ?_
    cases hopening with
    | literal hrole =>
      exact .of_course hcourse (.single hcut hk (Pending.follow_literal hrole hopen)) .nil
    | @enclosed j b hopens hcloses =>
      have hfollow := Pending.follow_opening hopens fun hmap => absurd hmap hopen
      have hj : j ∈ closers := by
        rw [eq_closer hcloses]
        cases b <;> decide
      exact .of_course hcourse (.single hcut hk hfollow)
        (traces_enclosed st ih hread' hless hcloses hj)
    | @awaiting more _ hrole hplain hparts =>
      have hfollow := Pending.follow_mark hrole hplain hopen
      rw [hparts] at hcourse
      exact .of_course hcourse (.single hcut hk hfollow) (traces_awaiting ih hread' hless more)
    | mapPrefix hmark =>
      subst hmark
      have hfollow := Pending.follow_mapPrefix hopen
      have hmap := traces_map st ih hread' (settled_skipTrivia _) hless
      exact .of_course hcourse (.single hcut hk hfollow) (.cons hmap fun _ => .nil)

theorem Decided.rest_ne_nil {k : TokenKind} (hk : Decided k c.rest) : c.rest ≠ [] := by
  intro hnil
  have haccepts := hk.accepts
  rw [hnil, k.lexeme_nil] at haccepts
  cases haccepts

theorem matchEnd_of_ne_nil (h : c.rest ≠ []) :
    matchEnd c = .failure .endOfInput c.offset := by
  obtain ⟨d, cs, hrest⟩ := List.exists_cons_of_ne_nil h
  rw [matchEnd, hrest]

theorem Ends.traces_finish (h : Ends c) : Traces (matchEnd c) [] [] c := by
  by_cases hnil : c.rest = []
  · have hc : Settled c := .of_rest_nil hnil
    rw [matchEnd, hnil]
    exact .success hc
  · rw [matchEnd_of_ne_nil hnil]
    exact .failure (h.blocked fun b hb => by cases hb)

theorem traces_code (hread : Readable (skipTrivia c)) :
    Traces (matchProduction matchAt Rule.code.production c) [] [] (skipTrivia c) := by
  have hpart : FormsTried (matchPart matchAt (.one (.rule .forms)) (skipTrivia c)) []
      (skipTrivia c) := formsTried_part (triedBelow _) rfl hread (Nat.lt_succ_self _)
  rw [Rule.production, matchProduction, List.map_cons, Matcher.inOrder]
  refine hpart.andThen (fun _ e hends => ?_) fun _ e k hk _ => ?_
  · have hfinish : Traces (matchParts [.finish] e) [] [] (skipTrivia e) := by
      rw [matchParts, List.map_singleton, Matcher.inOrder]
      exact Traces.andThen hends.traces_finish fun _ _ => .map (.success rfl)
    exact .map hfinish
  · have hfail : matchPart matchAt .finish (skipTrivia e) =
        .failure .endOfInput (skipTrivia e).offset := matchEnd_of_ne_nil hk.rest_ne_nil
    have hnone : (matchPart matchAt .finish (skipTrivia e)).result = none := by rw [hfail]; rfl
    rw [Attempt.offset_andThen_success, List.map_singleton, Attempt.result_andThen,
      Matcher.result_inOrder_cons, Matcher.inOrder, Attempt.offset_andThen_of_none hnone, hnone,
      hfail]
    exact ⟨rfl, rfl⟩

/-- The frontier of a refused text is the place where its tokens are blocked. -/
theorem stuck_of_derive_error {text : String} {frontier : Frontier Goal}
    (hread : Readable (.start text.toList)) (h : derive text = .error (.unexpected frontier)) :
    Stuck [] (skipTrivia (.start text.toList)) frontier.offset := by
  rw [derive, matchText_eq_matchAt, outcome] at h
  split at h
  · cases h
  · next hnone =>
    obtain rfl := SyntaxError.unexpected.inj (Except.error.inj h)
    have hrefused : ¬ Accepts (.rule .code) (.start text.toList) := not_accepts_iff.2 hnone
    have hproduction : (matchProduction matchAt Rule.code.production (.start text.toList)).result =
        none := by
      rw [result_matchAt] at hnone
      exact Option.map_eq_none_iff.1 hnone
    rw [reach_of_refused hrefused, reach_rule]
    have hstuck := (traces_code hread.skip).stuck hproduction
    have hzero : (Cursor.start text.toList).offset = 0 := rfl
    rwa [hzero, Nat.zero_max]

end

end HiccupReader.Clojure
