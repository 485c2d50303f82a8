import HiccupReader.Proofs.Clojure.Tracing

/-! What is looked for at the frontier of an attempt, in any text. It is a form that is not there,
or what may stand where a form is missing. Only a map is looked for where another form stands. -/

namespace HiccupReader

theorem Matching.Cursor.Reaches.unique {c d d' : Matching.Cursor} (h : c.Reaches d)
    (h' : c.Reaches d') (hoffset : d.offset = d'.offset) : d = d' := by
  obtain ⟨taken, hrest, ho⟩ := h
  obtain ⟨taken', hrest', ho'⟩ := h'
  obtain ⟨-, hsame⟩ := Clojure.eq_of_byteLength (hrest.trans hrest'.symm) (by omega)
  cases d
  cases d'
  exact congr (congrArg Matching.Cursor.mk hoffset) hsame

theorem Matching.Cursor.Reaches.dropBytes_eq {cs : List Char} {d : Matching.Cursor}
    (h : (Matching.Cursor.start cs).Reaches d) : Text.dropBytes d.offset cs = d.rest := by
  obtain ⟨before, rfl, hoffset⟩ := h
  rw [hoffset, Matching.Cursor.start, Nat.zero_add]
  exact Text.dropBytes_byteLength_append _ _

namespace Clojure

open Matching

/-- Something failed at a place further on. If a form stands there, only a map was looked for. -/
structure Lacks (c : Cursor) (f : Frontier Goal) : Prop where
  goals : f.goals ≠ []
  place : ∃ d, c.Reaches d ∧ d.offset = f.offset ∧
    (Accepts (.rule .form) d → ∀ g ∈ f.goals, g.expected = .openingBrace)

def LacksFrom (c : Cursor) (bound : Nat) (f : Frontier Goal) : Prop :=
  f = .start ∨ f.offset < bound ∨ Lacks c f

variable {c d : Cursor} {f g : Frontier Goal} {bound bound' : Nat}

namespace Lacks

theorem offset_le (h : Lacks c f) : c.offset ≤ f.offset := by
  obtain ⟨d, hreach, ho, -⟩ := h.place
  rw [← ho]
  exact hreach.offset_le

theorem of_reaches (hreach : c.Reaches d) (h : Lacks d f) : Lacks c f := by
  obtain ⟨e, he, htold⟩ := h.place
  exact ⟨h.goals, e, hreach.trans he, htold⟩

theorem refused {goal : Goal} (h : ¬ Accepts (.rule .form) c) :
    Lacks c (.failure goal c.offset) :=
  ⟨List.cons_ne_nil _ _, c, .refl c, rfl, fun haccepts => absurd haccepts h⟩

theorem join (h : Lacks c f) (h' : Lacks c g) : Lacks c (f.join g) := by
  obtain ⟨d, hd, hf, htold⟩ := h.place
  obtain ⟨d', hd', hg, htold'⟩ := h'.place
  rcases Nat.lt_trichotomy f.offset g.offset with hlt | heq | hgt
  · rwa [Frontier.join_of_lt hlt]
  · obtain rfl := hd.unique hd' (by omega)
    rw [Frontier.join_of_eq heq]
    refine ⟨List.append_ne_nil_of_left_ne_nil h.goals _, d, hd, hf, fun haccepts => ?_⟩
    exact List.forall_mem_append.2 ⟨htold haccepts, htold' haccepts⟩
  · rwa [Frontier.join_of_gt hgt]

end Lacks

namespace LacksFrom

theorem mono (hle : bound ≤ bound') (h : LacksFrom c bound f) : LacksFrom c bound' f := by
  rcases h with h | h | h
  · exact .inl h
  · exact .inr (.inl (Nat.lt_of_lt_of_le h hle))
  · exact .inr (.inr h)

theorem of_reaches (hreach : c.Reaches d) (h : LacksFrom d bound f) : LacksFrom c bound f := by
  rcases h with h | h | h
  · exact .inl h
  · exact .inr (.inl h)
  · exact .inr (.inr (h.of_reaches hreach))

theorem join_lacks (h : LacksFrom c bound f) (h' : Lacks c g) (hle : bound ≤ g.offset) :
    Lacks c (f.join g) := by
  rcases h with rfl | h | h
  · rwa [Frontier.start_join]
  · rwa [Frontier.join_of_lt (Nat.lt_of_lt_of_le h hle)]
  · exact h.join h'

theorem join (h : LacksFrom c bound f) (h' : LacksFrom c bound g) :
    LacksFrom c bound (f.join g) := by
  rcases h' with rfl | h' | h'
  · rwa [Frontier.join_start]
  · rcases h with rfl | h | h
    · rw [Frontier.start_join]
      exact .inr (.inl h')
    · refine .inr (.inl ?_)
      rw [Frontier.offset_join]
      omega
    · by_cases hlt : f.offset < bound
      · refine .inr (.inl ?_)
        rw [Frontier.offset_join]
        omega
      · rw [Frontier.join_of_gt (by omega)]
        exact .inr (.inr h)
  · by_cases hlt : g.offset < bound
    · rcases h with rfl | h | h
      · rw [Frontier.start_join]
        exact .inr (.inr h')
      · refine .inr (.inl ?_)
        rw [Frontier.offset_join]
        omega
      · exact .inr (.inr (h.join h'))
    · exact .inr (.inr (h.join_lacks h' (by omega)))

end LacksFrom

structure Lacking {α : Type} (F : Frontier Goal → Prop) (c : Cursor) (a : Attempt Goal α) : Prop where
  fails : a.result = none → F a.frontier
  stops : ∀ {value e}, a.result = some (value, e) → c.Reaches e ∧ LacksFrom c e.offset a.frontier

abbrev FailsFrom (c : Cursor) : Frontier Goal → Prop := LacksFrom c (c.offset + 1)

namespace Lacking

variable {α β : Type} {F : Frontier Goal → Prop} {a : Attempt Goal α}

theorem success (value : α) (hreach : c.Reaches d) :
    Lacking F c (.success value d : Attempt Goal α) where
  fails hnone := by cases hnone
  stops hsome := by
    obtain ⟨-, rfl⟩ := Prod.mk.inj (Option.some.inj hsome)
    exact ⟨hreach, .inl rfl⟩

theorem of_none (hnone : a.result = none) (h : F a.frontier) : Lacking F c a where
  fails _ := h
  stops hsome := by
    rw [hnone] at hsome
    cases hsome

theorem of_reaches (hreach : c.Reaches d) (h : Lacking (Lacks d) d a) : Lacking (Lacks c) c a where
  fails hnone := (h.fails hnone).of_reaches hreach
  stops hsome := by
    obtain ⟨he, hlacks⟩ := h.stops hsome
    exact ⟨hreach.trans he, hlacks.of_reaches hreach⟩

theorem andThen {next : α → Matcher Goal β} (hF : ∀ {f}, Lacks c f → F f) (h : Lacking F c a)
    (hnext : ∀ {value e}, a.result = some (value, e) → Lacking (Lacks e) e (next value e)) :
    Lacking F c (a.andThen next) := by
  cases hresult : a.result with
  | none =>
    rw [Attempt.andThen_of_none hresult]
    exact .of_none rfl (h.fails hresult)
  | some found =>
    obtain ⟨value, mid⟩ := found
    obtain ⟨hmid, hfirst⟩ := h.stops hresult
    have hrest := hnext hresult
    rw [Attempt.andThen_of_some hresult]
    constructor
    · intro hnone
      have hlacks := hrest.fails hnone
      exact hF (hfirst.join_lacks (hlacks.of_reaches hmid) hlacks.offset_le)
    · intro value' e hsome
      obtain ⟨he, hlater⟩ := hrest.stops hsome
      exact ⟨hmid.trans he, (hfirst.mono he.offset_le).join (hlater.of_reaches hmid)⟩

theorem map {f : α → Cursor → β} (h : Lacking F c a) :
    Lacking F c (a.andThen fun value c => .success (f value c) c) := by
  cases hresult : a.result with
  | none =>
    rw [Attempt.andThen_of_none hresult]
    exact .of_none rfl (h.fails hresult)
  | some found =>
    rw [Attempt.andThen_of_some hresult]
    constructor
    · intro hnone
      cases hnone
    · intro value' e hsome
      obtain ⟨-, rfl⟩ := Prod.mk.inj (Option.some.inj hsome)
      rw [Attempt.after, Attempt.success, Frontier.join_start]
      exact h.stops hresult

theorem aimedAt {goal : Goal} (h : Lacking (FailsFrom c) c a) :
    Lacking (FailsFrom c) c (a.aimedAt goal c.offset) := by
  cases hresult : a.result with
  | some found =>
    rw [Attempt.aimedAt, hresult]
    exact h
  | none =>
    have hsettled : FailsFrom c (a.frontier.settle goal c.offset) := by
      by_cases hlt : c.offset < a.frontier.offset
      · rw [Frontier.settle, if_pos hlt]
        exact h.fails hresult
      · refine .inr (.inl ?_)
        rw [Frontier.offset_settle]
        omega
    rw [Attempt.aimedAt, hresult]
    exact .of_none rfl hsettled

theorem firstOf {options : List Symbol}
    (h : ∀ s ∈ options, Lacking (FailsFrom c) c (matchSymbol matchAt s c))
    (hlater : ∀ s ∈ options, ∀ {t e}, readingOf matchAt s c t e → c.offset < e.offset) :
    Lacking (FailsFrom c) c (Matcher.firstOf (options.map (matchSymbol matchAt)) c) := by
  induction options with
  | nil => exact .of_none rfl (.inl rfl)
  | cons s options ih =>
    obtain ⟨hs, hrest⟩ := List.forall_mem_cons.1 h
    obtain ⟨-, hlater'⟩ := List.forall_mem_cons.1 hlater
    have hothers := ih hrest hlater'
    rw [List.map_cons, Matcher.firstOf]
    split
    · exact hs
    · next hnone =>
      have hfirst := hs.fails hnone
      constructor
      · exact fun hnone' => hfirst.join (hothers.fails hnone')
      · intro t e hsome
        obtain ⟨he, hlacks⟩ := hothers.stops hsome
        rw [Attempt.result_after, Matcher.result_firstOf] at hsome
        obtain ⟨x, hx, hread⟩ := List.exists_of_findSome?_eq_some hsome
        exact ⟨he, (hfirst.mono (hlater' x hx hread)).join hlacks⟩

theorem choice {r : Rule} {options : List Symbol} (hr : r.production = .choice options)
    (h : ∀ s ∈ options, Lacking (FailsFrom c) c (matchSymbol matchAt s c))
    (hlater : ∀ s ∈ options, ∀ {t e}, readingOf matchAt s c t e → c.offset < e.offset) :
    Lacking (FailsFrom c) c (matchAt r c) := by
  rw [matchAt_eq, hr]
  exact .aimedAt (.map (.map (.firstOf h hlater)))

theorem aimedAt_refused {goal : Goal} (h : Lacking (FailsFrom c) c a)
    (hrefused : a.result = none → ¬ Accepts (.rule .form) c) :
    Lacking (Lacks c) c (a.aimedAt goal c.offset) := by
  cases hresult : a.result with
  | some found =>
    rw [Attempt.aimedAt, hresult]
    exact ⟨fun hnone => absurd (hresult.symm.trans hnone) (Option.some_ne_none found),
      fun hsome => h.stops hsome⟩
  | none =>
    rw [Attempt.aimedAt, hresult]
    refine .of_none rfl ?_
    by_cases hlt : c.offset < a.frontier.offset
    · rw [Frontier.settle, if_pos hlt]
      rcases h.fails hresult with hstart | hless | hlacks
      · rw [hstart] at hlt
        cases hlt
      · omega
      · exact hlacks
    · refine ⟨Frontier.goals_settle_ne_nil _ _ fun h => absurd h hlt, c, .refl c, ?_, ?_⟩
      · rw [Frontier.offset_settle]
        omega
      · exact fun haccepts => absurd haccepts (hrefused hresult)

theorem token (k : TokenKind) (h : ¬ Accepts (.rule .form) c) :
    Lacking (Lacks c) c (matchToken k c) := by
  rw [matchToken]
  split
  · next taken left hcut => exact .success _ (reaches_of_lexeme hcut)
  · exact .of_none rfl (.refused h)

theorem nil (d : Cursor) : Lacking (Lacks d) d (matchParts [] d) := .success [] (.refl d)

theorem cons {s : Symbol} {parts : List Part}
    (h : Lacking (Lacks (skipTrivia d)) (skipTrivia d) (matchSymbol matchAt s (skipTrivia d)))
    (hrest : ∀ {t e}, readingOf matchAt s (skipTrivia d) t e →
      Lacking (Lacks e) e (matchParts parts e)) :
    Lacking (Lacks d) d (matchParts (.one s :: parts) d) := by
  rw [matchParts, List.map_cons, Matcher.inOrder]
  refine .of_reaches (reaches_skipTrivia d) (.andThen id (.map h) fun hsome => .map ?_)
  rw [result_matchPart_one] at hsome
  obtain ⟨⟨t, e'⟩, hread, he⟩ := Option.map_eq_some_iff.1 hsome
  obtain ⟨-, rfl⟩ := Prod.mk.inj he
  exact hrest hread

end Lacking

def LackingBelow (length : Nat) : Prop :=
  ∀ c : Cursor, Settled c → c.rest.length < length → Lacking (Lacks c) c (matchAt .form c)

section

variable {length : Nat}

theorem lacking_matchForms (hbelow : LackingBelow length) {limit : Nat}
    (hlength : c.rest.length < length) : Lacking (Lacks c) c (matchForms limit c) := by
  induction limit generalizing c with
  | zero => exact .success [] (.refl c)
  | succ limit ih =>
    have hskip := reaches_skipTrivia c
    have hle := hskip.length_le
    have hform := (hbelow (skipTrivia c) (settled_skipTrivia c) (by omega)).of_reaches hskip
    rw [matchForms_succ]
    split
    · next hnone =>
      refine ⟨(nomatch ·), fun hsome => ?_⟩
      obtain ⟨-, rfl⟩ := Prod.mk.inj (Option.some.inj hsome)
      exact ⟨.refl _, .inr (.inr (hform.fails hnone))⟩
    · next t e hsome =>
      have hless := (reaches_of_reading (s := .rule .form) hsome).length_le
      have hmore : ((matchAt .form (skipTrivia c)).andThen fun t e =>
            (matchForms limit e).andThen fun ts d => .success (t :: ts) d) =
          ((matchForms limit e).andThen fun ts d => .success (t :: ts) d).after
            (matchAt .form (skipTrivia c)).frontier :=
        Attempt.andThen_of_some hsome
      rw [← hmore]
      refine hform.andThen id fun hread => .map ?_
      obtain ⟨-, rfl⟩ := Prod.mk.inj (Option.some.inj (hsome.symm.trans hread))
      exact ih (by omega)

theorem lacking_forms (hbelow : LackingBelow length) (hc : Settled c)
    (hlength : c.rest.length < length) : Lacking (Lacks c) c (matchAt .forms c) := by
  obtain ⟨ts, e, hforms, -, heq⟩ := exists_forms hc
  have hstops := (lacking_matchForms hbelow hlength).stops hforms
  rw [heq]
  refine ⟨(nomatch ·), fun hsome => ?_⟩
  obtain ⟨-, rfl⟩ := Prod.mk.inj (Option.some.inj hsome)
  exact hstops

theorem lacking_enclosed (hbelow : LackingBelow length)
    (hlength : (skipTrivia d).rest.length < length)
    (j : TokenKind) :
    Lacking (Lacks d) d (matchParts [.one (.rule .forms), .one (.token j)] d) := by
  have hd := settled_skipTrivia d
  refine .cons (lacking_forms hbelow hd hlength) fun hread => ?_
  obtain ⟨ts, e, -, hrefused, heq⟩ := exists_forms hd
  rw [readingOf, matchSymbol, heq] at hread
  obtain ⟨-, rfl⟩ := Prod.mk.inj (Option.some.inj hread)
  exact .cons (.token j hrefused) fun _ => .nil _

theorem lacking_awaited (hbelow : LackingBelow length)
    (hlength : (skipTrivia d).rest.length < length) (n : Nat) :
    Lacking (Lacks d) d (matchParts (List.replicate n (.one (.rule .form))) d) := by
  induction n generalizing d with
  | zero => exact .nil d
  | succ n ih =>
    rw [List.replicate_succ]
    refine .cons (hbelow _ (settled_skipTrivia d) hlength) fun hread => ih ?_
    have hle := ((reaches_of_reading hread).trans (reaches_skipTrivia _)).length_le
    omega

theorem lacking_of_parts {r : Rule} {k : TokenKind} {parts : List Part} {taken left : List Char}
    (hr : r.production = .sequence (.one (.token k) :: parts)) (hc : Settled c)
    (hcut : k.lexeme c.rest = some (taken, left))
    (h : Lacking (Lacks (c.advance taken left)) (c.advance taken left)
      (matchParts parts (c.advance taken left))) : Lacking (Lacks c) c (matchAt r c) := by
  have hreach := reaches_of_lexeme hcut
  have hlater := offset_lt_of_lexeme hcut
  have hmatch : Lacking (Lacks (c.advance taken left)) (c.advance taken left)
      ((matchParts parts (c.advance taken left)).andThen fun more e =>
        .success (Rose.node ⟨r.index, c.offset, e.offset⟩ (.leaf (k.token c taken) :: more)) e) :=
    h.map
  rw [matchAt_opener_of_some hr hc hcut]
  generalize (matchParts parts (c.advance taken left)).andThen _ = a at hmatch ⊢
  cases hresult : a.result with
  | some found =>
    rw [Attempt.aimedAt, hresult]
    exact hmatch.of_reaches hreach
  | none =>
    have hfails := hmatch.fails hresult
    have hoffset := hfails.offset_le
    rw [Attempt.aimedAt, hresult]
    refine .of_none rfl ?_
    rw [Frontier.settle, if_pos (by omega)]
    exact hfails.of_reaches hreach

theorem lacking_map (hbelow : LackingBelow length) (hc : Settled c)
    (hlength : c.rest.length ≤ length) : Lacking (Lacks c) c (matchAt .map c) := by
  cases hcut : TokenKind.leftBrace.lexeme c.rest with
  | none =>
    rw [matchAt_opener_of_none (r := .map) rfl hc hcut]
    refine .of_none rfl ⟨List.cons_ne_nil _ _, c, .refl c, rfl, fun _ => ?_⟩
    exact List.forall_mem_singleton.2 rfl
  | some found =>
    have hless := length_skipTrivia_lt_of_lexeme hcut
    exact lacking_of_parts (r := .map) rfl hc hcut (lacking_enclosed hbelow (by omega) _)

theorem lacking_opener (hbelow : LackingBelow c.rest.length) (hc : Settled c) {x : Symbol}
    (hx : x ∈ openers) : Lacking (FailsFrom c) c (matchSymbol matchAt x c) := by
  obtain ⟨r, k, parts, rfl, hr, -, -, hopening⟩ := exists_opening_of_opener hx
  rw [matchSymbol]
  cases hcut : k.lexeme c.rest with
  | none =>
    rw [matchAt_opener_of_none hr hc hcut]
    exact .of_none rfl (.inr (.inl (Nat.lt_succ_self _)))
  | some found =>
    obtain ⟨taken, left⟩ := found
    have hless := length_skipTrivia_lt_of_lexeme hcut
    have hparts : Lacking (Lacks (c.advance taken left)) (c.advance taken left)
        (matchParts parts (c.advance taken left)) := by
      cases hopening with
      | literal => exact .nil _
      | enclosed => exact lacking_enclosed hbelow hless _
      | @awaiting n _ _ _ hparts =>
        rw [hparts]
        exact lacking_awaited hbelow hless (n + 1)
      | mapPrefix =>
        exact .cons (lacking_map hbelow (settled_skipTrivia _) (by omega)) fun _ => .nil _
    have hstrict := lacking_of_parts hr hc hcut hparts
    exact ⟨fun hnone => .inr (.inr (hstrict.fails hnone)), hstrict.stops⟩

theorem offset_lt_of_reading {s : Symbol} {t : Tree} (h : readingOf matchAt s c t d)
    (hc : Settled c) (hs : s.full = true) : c.offset < d.offset := by
  have hless := length_lt_of_reading h hc hs
  obtain ⟨taken, hrest, hoffset⟩ := reaches_of_reading h
  have hlength := Text.length_le_byteLength taken
  rw [← hrest, List.length_append] at hless
  omega

theorem lackingBelow (length : Nat) : LackingBelow length := by
  induction length with
  | zero => exact fun c _ hlt => by omega
  | succ length ih =>
    intro c hc hlt
    have hbelow : LackingBelow c.rest.length := fun d hd hless => ih d hd (by omega)
    have group : ∀ {r : Rule} {options : List Symbol}, r.production = .choice options →
        (∀ s ∈ options, s ∈ openers) → Lacking (FailsFrom c) c (matchAt r c) :=
      fun hr hopeners => .choice hr (fun s hs => lacking_opener hbelow hc (hopeners s hs))
        fun s hs _ _ hread => offset_lt_of_reading hread hc (openers_full s (hopeners s hs))
    have hgroups : ∀ s ∈ [Symbol.rule .collection, .rule .readerMacro, .rule .literal],
        Lacking (FailsFrom c) c (matchSymbol matchAt s c) := by
      simp only [List.forall_mem_cons]
      exact ⟨group (r := .collection) rfl (by decide), group (r := .readerMacro) rfl (by decide),
        group (r := .literal) rfl (by decide), by simp⟩
    have hfull : ∀ s ∈ [Symbol.rule .collection, .rule .readerMacro, .rule .literal],
        s.full = true := by decide
    rw [matchAt_eq]
    refine .aimedAt_refused (.map (.map (.firstOf hgroups fun s hs _ _ hread =>
      offset_lt_of_reading hread hc (hfull s hs)))) fun hnone => ?_
    refine not_accepts_iff.2 ?_
    rw [matchSymbol, matchAt_eq, Attempt.result_aimedAt]
    exact hnone

theorem lacking_finish {e : Cursor} (hrefused : ¬ Accepts (.rule .form) (skipTrivia e)) :
    Lacking (Lacks e) e (matchParts [.finish] e) ∧ ((matchParts [.finish] e).result = none →
      (matchParts [.finish] e).frontier.offset = (skipTrivia e).offset) := by
  have hskip := reaches_skipTrivia e
  rw [matchParts, List.map_singleton, Matcher.inOrder]
  cases hrest : (skipTrivia e).rest with
  | nil =>
    have hend : matchPart matchAt .finish (skipTrivia e) = .success [] (skipTrivia e) := by
      rw [matchPart, matchEnd, hrest]
    rw [hend, Attempt.success_andThen, Matcher.inOrder, Attempt.success_andThen]
    exact ⟨.success _ hskip, fun hnone => absurd hnone (Option.some_ne_none _)⟩
  | cons d cs =>
    have hend : matchPart matchAt .finish (skipTrivia e) =
        .failure .endOfInput (skipTrivia e).offset := by
      rw [matchPart, matchEnd, hrest]
    rw [hend, Attempt.andThen_of_none rfl]
    exact ⟨.of_none rfl ((Lacks.refused hrefused).of_reaches hskip), fun _ => rfl⟩

theorem lacking_code (c : Cursor) :
    Lacking (Lacks c) c (matchParts [.one (.rule .forms), .finish] c) ∧
      ((matchParts [.one (.rule .forms), .finish] c).result = none →
        ∃ d, c.Reaches d ∧ ¬ Accepts (.rule .form) d ∧
          d.offset ≤ (matchParts [.one (.rule .forms), .finish] c).frontier.offset) := by
  obtain ⟨ts, e, -, hrefused, heq⟩ := exists_forms (settled_skipTrivia c)
  obtain ⟨hfinish, hend⟩ := lacking_finish hrefused
  have hread : readingOf matchAt (.rule .forms) (skipTrivia c)
      (.node ⟨Rule.forms.index, (skipTrivia c).offset, e.offset⟩ ts) e := by
    rw [readingOf, matchSymbol, heq]
  have hforms := lacking_forms (lackingBelow _) (settled_skipTrivia c) (Nat.lt_succ_self _)
  constructor
  · refine .cons hforms fun hread' => ?_
    obtain ⟨-, rfl⟩ := Prod.mk.inj (Option.some.inj (hread.symm.trans hread'))
    exact hfinish
  · obtain ⟨us, hpart⟩ : ∃ us,
        (matchPart matchAt (.one (.rule .forms)) (skipTrivia c)).result = some (us, e) := by
      rw [result_matchPart_one, matchSymbol, heq]
      exact ⟨_, rfl⟩
    have hreach := (reaches_skipTrivia c).trans ((reaches_of_reading hread).trans
      (reaches_skipTrivia e))
    rw [matchParts, List.map_cons, Matcher.inOrder, Attempt.andThen_of_some hpart,
      Attempt.result_after, Attempt.offset_after, Attempt.offset_andThen_success,
      Attempt.result_andThen]
    intro hnone
    have hnone' : (matchParts [.finish] e).result = none := by
      exact Option.map_eq_none_iff.1 ((Option.map_eq_bind ..).trans hnone)
    exact ⟨_, hreach, hrefused, by rw [hend hnone']; exact Nat.le_max_right _ _⟩

theorem lacks_of_derive_error {text : String} {frontier : Frontier Goal}
    (h : derive text = .error (.unexpected frontier)) : Lacks (.start text.toList) frontier := by
  generalize hstart : Cursor.start text.toList = c
  rw [derive, matchText_eq_matchAt, hstart, outcome] at h
  split at h
  · cases h
  · next hnone =>
    obtain rfl := SyntaxError.unexpected.inj (Except.error.inj h)
    have hproduction : (matchParts [.one (.rule .forms), .finish] c).result = none := by
      rw [result_matchAt] at hnone
      exact Option.map_eq_none_iff.1 hnone
    have hcode : (matchAt .code c).frontier =
        (matchParts [.one (.rule .forms), .finish] c).frontier.settle (.symbol (.rule .code))
          c.offset := by
      rw [matchAt_eq, Rule.production, matchProduction, Attempt.andThen_of_none hproduction]
      rfl
    obtain ⟨hparts, hplace⟩ := lacking_code c
    have hlacks := hparts.fails hproduction
    rw [hcode]
    by_cases hlt : c.offset < (matchParts [.one (.rule .forms), .finish] c).frontier.offset
    · rwa [Frontier.settle, if_pos hlt]
    · -- Nothing was read, so that the place is the one where no form stands.
      obtain ⟨d, hreach, hrefused, hle⟩ := hplace hproduction
      have hge := hreach.offset_le
      obtain rfl := hreach.unique (.refl c) (by omega)
      refine ⟨Frontier.goals_settle_ne_nil _ _ fun h => absurd h hlt, d, .refl d, ?_, ?_⟩
      · rw [Frontier.offset_settle]
        omega
      · exact fun haccepts => absurd haccepts hrefused

end

end Clojure
end HiccupReader
