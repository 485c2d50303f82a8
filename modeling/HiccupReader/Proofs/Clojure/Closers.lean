import HiccupReader.Proofs.Clojure.Carrying
import HiccupReader.Proofs.Clojure.Lacking
import HiccupReader.Proofs.Clojure.Messages
import HiccupReader.Proofs.Clojure.Misfit
import HiccupReader.Proofs.Clojure.Subforms

/-! The closing delimiters that a message names. Wherever one was looked for, the lexer has left its
bracket open as the innermost one. So a message names one at most, and it closes what is open at the
place of the error. -/

namespace HiccupReader.Clojure

open Matching

def Names (c : Cursor) (f : Frontier Goal) : Prop :=
  ∀ b : Bracket, Goal.symbol (.token b.closer) ∈ f.goals → Opened c f.offset b

def BalancedTo (c d : Cursor) : Prop :=
  ∃ ts stop, Spells TokenKind.Preferred c ts stop ∧ skipTrivia stop = skipTrivia d ∧
    Balanced (delimitersOf ts)

variable {α β : Type} {b : Bracket} {c d e : Cursor} {f g : Frontier Goal} {goal : Goal}
  {offset : Nat}

namespace Names

theorem start (c : Cursor) : Names c .start := fun _ hmem => nomatch hmem

theorem failure (h : ∀ b : Bracket, goal ≠ .symbol (.token b.closer)) :
    Names c (.failure goal offset) :=
  fun b hmem => absurd (List.mem_singleton.1 hmem).symm (h b)

theorem join (hf : Names c f) (hg : Names c g) : Names c (f.join g) := by
  rcases Nat.lt_trichotomy f.offset g.offset with hlt | heq | hgt
  · rwa [Frontier.join_of_lt hlt]
  · rw [Frontier.join_of_eq heq]
    intro b hmem
    rcases List.mem_append.1 hmem with hmem | hmem
    · exact hf b hmem
    · exact heq ▸ hg b hmem
  · rwa [Frontier.join_of_gt hgt]

theorem settle {r : Rule} (h : Names c f) : Names c (f.settle (.symbol (.rule r)) offset) := by
  rw [Frontier.settle]
  split
  · exact h
  · split
    · exact h
    · exact .failure fun b hgoal => by cases hgoal

theorem of_carries (hcarries : Carries c d) (h : Names d f) : Names c f :=
  fun b hmem => hcarries.opened (h b hmem)

theorem andThen {a : Attempt Goal α} {next : α → Matcher Goal β} (h : Names c a.frontier)
    (hnext : ∀ {value e}, a.result = some (value, e) → Names c (next value e).frontier) :
    Names c (a.andThen next).frontier := by
  cases hresult : a.result with
  | none =>
    rw [Attempt.andThen_of_none hresult]
    exact h
  | some found =>
    rw [Attempt.andThen_of_some hresult]
    exact h.join (hnext hresult)

theorem map {a : Attempt Goal α} {f : α → Cursor → β} (h : Names c a.frontier) :
    Names c (a.andThen fun value c => .success (f value c) c).frontier :=
  h.andThen fun _ => .start c

theorem aimedAt {a : Attempt Goal α} {r : Rule} (h : Names c a.frontier) :
    Names c (a.aimedAt (.symbol (.rule r)) offset).frontier := by
  rw [Attempt.aimedAt]
  split
  · exact h
  · exact h.settle

theorem firstOf {options : List Symbol}
    (h : ∀ s ∈ options, (∀ x ∈ options.takeWhile (· ≠ s), ¬ Accepts x c) →
      Names c (matchSymbol matchAt s c).frontier) :
    Names c (Matcher.firstOf (options.map (matchSymbol matchAt)) c).frontier := by
  induction options with
  | nil => exact .start c
  | cons s options ih =>
    have hs : Names c (matchSymbol matchAt s c).frontier :=
      h s (List.mem_cons_self ..) (by simp)
    rw [List.map_cons, Matcher.firstOf]
    split
    · exact hs
    · next hnone =>
      refine hs.join (ih fun x hx hearlier => ?_)
      refine h x (List.mem_cons_of_mem _ hx) fun y hy => ?_
      by_cases hsx : s = x
      · rw [List.takeWhile_cons_of_neg (by simpa using hsx)] at hy
        cases hy
      · rw [List.takeWhile_cons_of_pos (by simpa using hsx)] at hy
        rcases List.mem_cons.1 hy with rfl | hy
        · exact not_accepts_iff.2 hnone
        · exact hearlier y hy

theorem choice {r : Rule} {options : List Symbol} (hr : r.production = .choice options)
    (h : ∀ s ∈ options, (∀ x ∈ options.takeWhile (· ≠ s), ¬ Accepts x c) →
      Names c (matchSymbol matchAt s c).frontier) : Names c (matchAt r c).frontier := by
  rw [matchAt_eq, hr]
  exact .aimedAt (.map (.map (.firstOf h)))

theorem nil (d : Cursor) : Names c (matchParts [] d).frontier := .start c

theorem cons {s : Symbol} {parts : List Part}
    (h : Names c (matchSymbol matchAt s (skipTrivia d)).frontier)
    (hrest : ∀ {t e}, readingOf matchAt s (skipTrivia d) t e →
      Names c (matchParts parts e).frontier) :
    Names c (matchParts (.one s :: parts) d).frontier := by
  rw [matchParts, List.map_cons, Matcher.inOrder]
  refine .andThen (.map h) fun hsome => .map ?_
  rw [result_matchPart_one] at hsome
  obtain ⟨⟨t, e'⟩, hread, he⟩ := Option.map_eq_some_iff.1 hsome
  obtain ⟨-, rfl⟩ := Prod.mk.inj he
  exact hrest hread

end Names

namespace BalancedTo

theorem refl (c : Cursor) : BalancedTo c c := ⟨[], c, .done c, rfl, .nil⟩

theorem skip (c : Cursor) : BalancedTo c (skipTrivia c) :=
  ⟨[], c, .done c, (settled_skipTrivia c).symm, .nil⟩

theorem trans (h : BalancedTo c d) (h' : BalancedTo d e) : BalancedTo c e := by
  obtain ⟨ts, mid, hts, hmid, hbalanced⟩ := h
  obtain ⟨us, stop, hus, hstop, hbalanced'⟩ := h'
  obtain ⟨stop', hus', hstop'⟩ := hus.exists_of_skip_eq hmid
  refine ⟨ts ++ us, stop', hts.append hus', hstop'.trans hstop, ?_⟩
  rw [delimitersOf_append]
  exact hbalanced.append hbalanced'

theorem carries (h : BalancedTo c d) (hread : Readable (skipTrivia d)) : Carries c d := by
  obtain ⟨ts, stop, hts, hstop, -⟩ := h
  exact .of_spells hts hstop hread

theorem opened {k : TokenKind} {taken left : List Char} (hc : Settled c) (hk : k.Preferred c.rest)
    (hcut : k.lexeme c.rest = some (taken, left)) (hopens : k.delimiter? = some (.opening b))
    (h : BalancedTo (c.advance taken left) e) : Opened c (skipTrivia e).offset b := by
  obtain ⟨ts, stop, hts, hstop, hbalanced⟩ := h
  refine (opened_iff hc hk hcut).2 ⟨ts, stop, hts, by rw [hstop], [], _, ?_, hbalanced⟩
  rw [hopens]
  rfl

end BalancedTo

theorem balancedTo_of_form {t : Tree} (hc : Settled c) (hread : Readable c)
    (h : readingOf matchAt (.rule .form) c t e) : BalancedTo c e ∧ Readable (skipTrivia e) := by
  cases triedBelow _ c hc hread (Nat.lt_succ_self _) with
  | form _ _ htraces =>
    obtain ⟨-, hfollows⟩ := (htraces [] nofun).reads h
    obtain ⟨ts, ks, stop, hts, hkinds, hrun, hstop⟩ := hfollows.exists_settles hc
    obtain ⟨ls, js, hls, hlexed, hrecut⟩ := hts.exists_recut hkinds
    refine ⟨⟨ls, stop, hls, hstop, ?_⟩, hfollows.readable hc hread⟩
    rw [delimitersOf_eq hlexed, hrecut.delimiters_eq]
    cases Pending.leaving_of_run hrun (.none .nil) with
    | none hbalanced => exact hbalanced
  | ends _ hnone =>
    have hsome : (matchAt .form c).result = some (t, e) := h
    rw [hnone] at hsome
    cases hsome

def NamesBelow (length : Nat) : Prop :=
  ∀ c : Cursor, Settled c → Readable c → c.rest.length < length → Names c (matchAt .form c).frontier

section

variable {length : Nat} (hbelow : NamesBelow length)

include hbelow

theorem names_matchForms {limit : Nat} (hread : Readable (skipTrivia c))
    (hlength : c.rest.length < length) : Names c (matchForms limit c).frontier ∧
      ∀ {ts e}, (matchForms limit c).result = some (ts, e) →
        BalancedTo c e ∧ Readable (skipTrivia e) := by
  induction limit generalizing c with
  | zero =>
    refine ⟨.start c, fun hsome => ?_⟩
    obtain ⟨-, rfl⟩ := Prod.mk.inj (Option.some.inj hsome)
    exact ⟨.refl _, hread⟩
  | succ limit ih =>
    have hc := settled_skipTrivia c
    have hle := (reaches_skipTrivia c).length_le
    have hform := (hbelow _ hc hread (by omega)).of_carries (.skip hread)
    rw [matchForms_succ]
    split
    · next hnone =>
      refine ⟨hform, fun hsome => ?_⟩
      obtain ⟨-, rfl⟩ := Prod.mk.inj (Option.some.inj hsome)
      exact ⟨.refl _, hread⟩
    · next t d hsome =>
      obtain ⟨hbalanced, hread'⟩ := balancedTo_of_form hc hread hsome
      have hfirst : BalancedTo c d := .trans (.skip c) hbalanced
      have hless := length_lt_of_reading (s := .rule .form) hsome hc rfl
      obtain ⟨hmore, hends⟩ := ih hread' (by omega)
      refine ⟨hform.join (.map (hmore.of_carries (hfirst.carries hread'))), fun hsome' => ?_⟩
      rw [Attempt.result_after, Attempt.result_andThen] at hsome'
      obtain ⟨⟨ts, e'⟩, hresult, he⟩ := Option.bind_eq_some_iff.1 hsome'
      obtain ⟨-, rfl⟩ := Prod.mk.inj (Option.some.inj he)
      obtain ⟨hrest, hread''⟩ := hends hresult
      exact ⟨hfirst.trans hrest, hread''⟩

theorem names_enclosed {j k : TokenKind} {taken left : List Char} (hc : Settled c)
    (hread : Readable c) (hk : k.Preferred c.rest) (hcut : k.lexeme c.rest = some (taken, left))
    (hopens : k.delimiter? = some (.opening b)) (hcloses : j.delimiter? = some (.closing b))
    (hlength : c.rest.length ≤ length) :
    Names c (matchParts [.one (.rule .forms), .one (.token j)] (c.advance taken left)).frontier := by
  have hcarries : Carries c (c.advance taken left) := .of_preferred hc hread hk hcut
  have hless := length_skipTrivia_lt_of_lexeme hcut
  have hd := settled_skipTrivia (c.advance taken left)
  obtain ⟨ts, e, hforms, -, heq⟩ := exists_forms hd
  have hskip : Carries (c.advance taken left) (skipTrivia (c.advance taken left)) :=
    .skip hcarries.readable
  obtain ⟨hnames, hends⟩ := names_matchForms hbelow hskip.readable
    (Nat.lt_of_lt_of_le hless hlength)
  refine .cons ?_ fun hreading => .cons ?_ fun _ => .nil _
  · rw [matchSymbol, heq]
    exact hnames.of_carries (hcarries.trans hskip)
  · rw [readingOf, matchSymbol, heq] at hreading
    obtain ⟨-, rfl⟩ := Prod.mk.inj (Option.some.inj hreading)
    have hbalanced := BalancedTo.trans (.skip _) (hends hforms).1
    rw [matchSymbol, matchToken]
    split
    · exact .start c
    · intro b' hmem
      have hgoal := Symbol.token.inj (Goal.symbol.inj (List.mem_singleton.1 hmem))
      obtain rfl : b' = b := by
        rw [eq_closer hcloses] at hgoal
        cases b' <;> cases b <;> first | rfl | cases hgoal
      exact hbalanced.opened hc hk hcut hopens

theorem names_awaited (n : Nat) {d : Cursor} (hread : Readable (skipTrivia d))
    (hlength : (skipTrivia d).rest.length < length) :
    Names d (matchParts (List.replicate n (.one (.rule .form))) d).frontier := by
  induction n generalizing d with
  | zero => exact .nil d
  | succ n ih =>
    have hd := settled_skipTrivia d
    rw [List.replicate_succ]
    refine .cons ?_ fun {t e} hreading => ?_
    · exact (hbelow _ hd hread hlength).of_carries (.skip hread)
    · obtain ⟨hbalanced, hread'⟩ := balancedTo_of_form hd hread hreading
      have hle := ((reaches_of_reading hreading).trans (reaches_skipTrivia e)).length_le
      have hfirst : BalancedTo d e := .trans (.skip d) hbalanced
      exact (ih hread' (by omega)).of_carries (hfirst.carries hread')

theorem names_map (hc : Settled c) (hread : Readable c) (hlength : c.rest.length ≤ length) :
    Names c (matchAt .map c).frontier := by
  cases hcut : TokenKind.leftBrace.lexeme c.rest with
  | none =>
    rw [matchAt_opener_of_none (r := .map) rfl hc hcut]
    exact .failure fun b h => by cases b <;> cases h
  | some found =>
    obtain ⟨taken, left⟩ := found
    have hk : TokenKind.leftBrace.Preferred c.rest :=
      .of_unrivalled (fun p => (closers_unrivalled p).1) (by rw [hcut]; rfl)
    rw [matchAt_opener_of_some (r := .map) rfl hc hcut]
    exact .aimedAt (.map (names_enclosed hbelow hc hread hk hcut rfl rfl hlength))

theorem names_opener {x : Symbol} (hx : x ∈ openers) (hc : Settled c) (hread : Readable c)
    (hlength : c.rest.length ≤ length)
    (hdiscard : x = .rule .taggedLiteral → ¬ Accepts (.rule .discard) c) :
    Names c (matchSymbol matchAt x c).frontier := by
  obtain ⟨r, k, parts, rfl, hr, hlead, hcloser, hopening⟩ := exists_opening_of_opener hx
  rw [matchSymbol]
  cases hcut : k.lexeme c.rest with
  | none =>
    rw [matchAt_opener_of_none hr hc hcut]
    refine .failure fun b hgoal => hcloser ?_
    obtain rfl := Symbol.token.inj (Goal.symbol.inj hgoal)
    cases b <;> decide
  | some found =>
    obtain ⟨taken, left⟩ := found
    have hless : (skipTrivia (c.advance taken left)).rest.length < length :=
      Nat.lt_of_lt_of_le (length_skipTrivia_lt_of_lexeme hcut) hlength
    have hsome : (k.lexeme c.rest).isSome := by
      rw [hcut]
      rfl
    rw [matchAt_opener_of_some hr hc hcut]
    refine .aimedAt (.map ?_)
    cases hopening with
    | literal => exact .nil _
    | enclosed hopens hcloses =>
      have hk : k.Preferred c.rest := by
        refine preferred_of_isSome ?_ ?_ ?_ hsome
        · rw [role_of_opening hopens]
          decide
        · rintro rfl
          cases hopens
        · rintro rfl
          cases hopens
      exact names_enclosed hbelow hc hread hk hcut hopens hcloses hlength
    | @awaiting n _ hrole _ hparts =>
      have hcarries : Carries c (c.advance taken left) := by
        refine carries_mark hc hread hrole hcut fun htag => hdiscard ?_
        subst htag
        exact (openers_of_lead _ hx).1 hlead
      rw [hparts]
      exact (names_awaited hbelow (n + 1) hcarries.readable hless).of_carries hcarries
    | mapPrefix hmark =>
      subst hmark
      have hcarries : Carries c (c.advance taken left) :=
        .of_preferred hc hread
          (preferred_of_isSome (by decide) (by decide) (by decide) hsome) hcut
      have hd := settled_skipTrivia (c.advance taken left)
      refine .cons ?_ fun _ => .nil _
      exact (names_map hbelow hd hcarries.readable (Nat.le_of_lt hless)).of_carries
        (hcarries.trans (.skip hcarries.readable))

end

theorem namesBelow (length : Nat) : NamesBelow length := by
  induction length with
  | zero => exact fun c _ _ hlt => absurd hlt (Nat.not_lt_zero _)
  | succ length ih =>
    intro c hc hread hlt
    have hlength : c.rest.length ≤ length := Nat.le_of_lt_succ hlt
    have group : ∀ {r : Rule} {options : List Symbol}, r.production = .choice options →
        (∀ s ∈ options, s ∈ openers ∧
          (s = .rule .taggedLiteral → .rule .discard ∈ options.takeWhile (· ≠ s))) →
        Names c (matchAt r c).frontier := fun hr hopeners =>
      .choice hr fun s hs hearlier =>
        names_opener ih (hopeners s hs).1 hc hread hlength fun htag =>
          hearlier _ ((hopeners s hs).2 htag)
    refine .choice (r := .form) rfl ?_
    simp only [List.forall_mem_cons]
    exact ⟨fun _ => group (r := .collection) rfl (by decide),
      fun _ => group (r := .readerMacro) rfl (by decide),
      fun _ => group (r := .literal) rfl (by decide), by simp⟩

variable {text : String} {frontier : Frontier Goal}

theorem names_of_derive_error (hread : Readable (.start text.toList))
    (h : derive text = .error (.unexpected frontier)) : Names (.start text.toList) frontier := by
  generalize hstart : Cursor.start text.toList = c at hread
  rw [derive, matchText_eq_matchAt, hstart, outcome] at h
  split at h
  · cases h
  · obtain rfl := SyntaxError.unexpected.inj (Except.error.inj h)
    have hd := settled_skipTrivia c
    have hskip : Carries c (skipTrivia c) := .skip hread.skip
    obtain ⟨ts, e, hforms, -, heq⟩ := exists_forms hd
    have hnames : Names (skipTrivia c)
        (matchForms ((skipTrivia c).rest.length + 1) (skipTrivia c)).frontier :=
      (names_matchForms (namesBelow _) hskip.readable (Nat.lt_succ_self _)).1
    rw [matchAt_eq]
    refine .aimedAt (.map ?_)
    rw [Rule.production, matchProduction]
    refine .cons ?_ fun {t d} _ => ?_
    · rw [matchSymbol, heq]
      exact hnames.of_carries hskip
    · rw [matchParts, List.map_singleton, Matcher.inOrder]
      refine .andThen ?_ fun _ => .map (.start c)
      rw [matchPart, matchEnd]
      split
      · exact .start c
      · exact .failure fun b hgoal => by cases hgoal

theorem Spells.lt_stop {P : TokenKind → List Char → Prop} {ts : List Token}
    (h : Spells P c ts d) : ∀ token ∈ ts, (skipTrivia c).offset < token.span.stop := by
  induction h with
  | done => simp
  | @token k c d taken left ts hcut _ _ ih =>
    have hlater := offset_lt_of_lexeme hcut
    refine List.forall_mem_cons.2 ⟨hlater, fun token hmem => ?_⟩
    have hskip := (reaches_skipTrivia ((skipTrivia c).advance taken left)).offset_le
    have hrest := ih token hmem
    omega

theorem Opened.innermost {tokens : List Token} (h : Opened (.start text.toList) offset b)
    (hlex : lex text = .ok tokens) :
    Innermost b (delimitersOf (tokens.filter fun token => token.span.stop ≤ offset)) := by
  obtain ⟨ts, mid, hts, rfl, hinnermost⟩ := h
  obtain ⟨stop, hspells, hend⟩ := exists_spells_of_lex hlex
  obtain ⟨us, rfl, hus⟩ := hts.exists_rest id hspells hend
  have hfront : ts.filter (fun token => token.span.stop ≤ (skipTrivia mid).offset) = ts := by
    refine List.filter_eq_self.2 fun token hmem => decide_eq_true ?_
    exact Nat.le_trans (hts.stop_le token hmem) (reaches_skipTrivia mid).offset_le
  have hback : us.filter (fun token => token.span.stop ≤ (skipTrivia mid).offset) = [] := by
    refine List.filter_eq_nil_iff.2 fun token hmem => ?_
    rw [decide_eq_true_eq, Nat.not_le]
    exact hus.lt_stop token hmem
  rwa [List.filter_append, hfront, hback, List.append_nil]

theorem span_start_of_derive_error (h : derive text = .error (.unexpected frontier)) :
    frontier.offset = text.utf8ByteSize ∨ ∀ name,
      ((SyntaxError.unexpected frontier).diagnostic ⟨name, text⟩).span?.map Span.start =
        some frontier.offset := by
  obtain ⟨d, ⟨before, htext, hoffset⟩, hplace, -⟩ := (lacks_of_derive_error h).place
  have hsplit : before ++ d.rest = text.toList := htext
  have hlength := Text.byteLength_toList text
  rw [← hsplit, Text.byteLength_append] at hlength
  have hbefore : frontier.offset = Text.byteLength before := by
    rw [← hplace, hoffset]
    exact Nat.zero_add _
  by_cases hlt : frontier.offset < text.utf8ByteSize
  · exact .inr fun _ => congrArg (some ∘ Span.start) (spotAt_of_lt hlt)
  · exact .inl (by omega)

/-- A message shows one closing delimiter at most, and it closes the innermost bracket that the
tokens up to the place of the error leave open, if no comment hides behind a discard mark. -/
theorem closer_closes_innermost (text : String) (tokens : List Token) (error : SyntaxError)
    (hlex : lex text = .ok tokens) (hdeep : Nesting.firstTooDeep? tokens = none)
    (hparse : parse text = .error error)
    (hvisible : ∀ token ∈ tokens, token.rule = TokenKind.discard.index →
      ¬ opensHidden (Text.dropBytes token.span.stop text.toList) = true) :
    ∃ frontier, error = .unexpected frontier ∧
      (frontier.offset = text.utf8ByteSize ∨ ∀ name,
        (error.diagnostic ⟨name, text⟩).span?.map Span.start = some frontier.offset) ∧
      ∀ name b, Shows (error.diagnostic ⟨name, text⟩).message b →
        Innermost b (delimitersOf (tokens.filter fun token => token.span.stop ≤ frontier.offset)) ∧
          ∀ b', Shows (error.diagnostic ⟨name, text⟩).message b' → b' = b := by
  have hderive : derive text = .error error := by
    simpa [parse, hlex, checkNesting, hdeep, bind, Except.bind] using hparse
  obtain ⟨frontier, rfl⟩ := exists_unexpected_of_outcome hderive
  have hnames := names_of_derive_error (readable_of_lex hlex hvisible) hderive
  have innermost : ∀ b, Shows (describe (expectedOf frontier.goals)) b →
      Innermost b (delimitersOf (tokens.filter fun token => token.span.stop ≤ frontier.offset)) :=
    fun b hshows => (hnames b ((shows_goals_iff _ b).1 hshows)).innermost hlex
  refine ⟨frontier, rfl, span_start_of_derive_error hderive, fun name b hshows => ?_⟩
  exact ⟨innermost b hshows, fun b' hshows' => (innermost b' hshows').unique (innermost b hshows)⟩

def told? {α : Type} : Except SyntaxError α → Option (Nat × String)
  | .error (.unexpected frontier) => some (frontier.offset, describe (expectedOf frontier.goals))
  | _ => none

theorem exists_unexpected_of_told? {α : Type} {result : Except SyntaxError α} {message : String}
    (h : told? result = some (offset, message)) :
    ∃ frontier, result = .error (.unexpected frontier) ∧ frontier.offset = offset ∧
      describe (expectedOf frontier.goals) = message := by
  unfold told? at h
  split at h
  · next frontier =>
    obtain ⟨hoffset, hmessage⟩ := Prod.mk.inj (Option.some.inj h)
    exact ⟨frontier, rfl, hoffset, hmessage⟩
  · cases h

theorem closer_closes_list : ∃ tokens frontier, lex "[(#\x7ba\x7d]" = .ok tokens ∧
    Nesting.firstTooDeep? tokens = none ∧ parse "[(#\x7ba\x7d]" = .error (.unexpected frontier) ∧
    (∀ token ∈ tokens, token.rule = TokenKind.discard.index →
      ¬ opensHidden (Text.dropBytes token.span.stop "[(#\x7ba\x7d]".toList) = true) ∧
    frontier.offset = 6 ∧ Innermost .round
      (delimitersOf (tokens.filter fun token => token.span.stop ≤ frontier.offset)) := by
  have hfound : (lex "[(#\x7ba\x7d]").toOption.map (fun tokens =>
      decide (Nesting.firstTooDeep? tokens = none ∧
        ∀ token ∈ tokens, token.rule = TokenKind.discard.index →
          ¬ opensHidden (Text.dropBytes token.span.stop "[(#\x7ba\x7d]".toList) = true)) =
      some true := by
    decide +kernel
  obtain ⟨tokens, htokens, hchecked⟩ := Option.map_eq_some_iff.1 hfound
  obtain ⟨hdeep, hvisible⟩ := of_decide_eq_true hchecked
  have htold : told? (parse "[(#\x7ba\x7d]") = some (6, "expected one of ')', form") := by
    decide +kernel
  obtain ⟨frontier, hparse, hoffset, hmessage⟩ := exists_unexpected_of_told? htold
  have hlex := eq_ok_of_toOption htokens
  obtain ⟨frontier', herror, -, hcloses⟩ :=
    closer_closes_innermost _ tokens _ hlex hdeep hparse hvisible
  obtain rfl := SyntaxError.unexpected.inj herror
  have hshows : Shows (describe (expectedOf frontier.goals)) .round := by
    rw [hmessage]
    decide +kernel
  exact ⟨tokens, frontier, hlex, hdeep, hparse, hvisible, hoffset, (hcloses "a" _ hshows).1⟩

/-- The lexer takes the list for a part of the comment. -/
theorem not_closer_closes_innermost :
    ¬ ∀ text tokens error, lex text = .ok tokens → Nesting.firstTooDeep? tokens = none →
      parse text = .error error → ∃ frontier, error = .unexpected frontier ∧
        ∀ name b, Shows (error.diagnostic ⟨name, text⟩).message b → Innermost b
          (delimitersOf (tokens.filter fun token => token.span.stop ≤ frontier.offset)) := by
  intro hcloses
  have hlex : lex "#_#!x (" = .ok [⟨TokenKind.discard.index, "#_", 0, 2⟩] :=
    eq_ok_of_toOption (by decide +kernel)
  have htold : told? (parse "#_#!x (") = some (7, "expected one of ')', form") := by
    decide +kernel
  obtain ⟨frontier, hparse, hoffset, hmessage⟩ := exists_unexpected_of_told? htold
  obtain ⟨frontier', herror, hinnermost⟩ := hcloses _ _ _ hlex (by decide) hparse
  obtain rfl := SyntaxError.unexpected.inj herror
  have hshows : Shows (describe (expectedOf frontier.goals)) .round := by
    rw [hmessage]
    decide +kernel
  refine (hinnermost "a" .round hshows).ne_nil ?_
  rw [hoffset]
  decide

end HiccupReader.Clojure
