import HiccupReader.Proofs.Clojure.NestingLimit

/-! The count of the nesting at a place within a text. Behind a whole text no level is left, and
fewer levels in front never make the count any deeper. -/

namespace HiccupReader.Clojure.Nesting

variable {ls ms levels : List Level} {ks js : List TokenKind} {ts us : List Token}

def levelsAfter (levels : List Level) (tokens : List Token) : List Level :=
  tokens.foldl (fun levels token => step levels (roleOf token)) levels

theorem levelsAfter_eq (hkinds : ts.map Token.rule = ks.map TokenKind.index)
    (levels : List Level) : levelsAfter levels ts = after levels ks := by
  induction ks generalizing ts levels with
  | nil =>
    obtain rfl := List.map_eq_nil_iff.1 hkinds
    rfl
  | cons k ks ih =>
    obtain ⟨t, ts, rfl, hrule, hrest⟩ := List.map_eq_cons_iff.1 hkinds
    rw [levelsAfter, List.foldl_cons, roleOf_eq hrule]
    exact ih hrest _

theorem shallow_append_iff :
    Shallow levels (ts ++ us) ↔ Shallow levels ts ∧ Shallow (levelsAfter levels ts) us := by
  rw [Shallow, depths_append]
  exact List.forall_mem_append

theorem complete_isPrefix (h : ls <+: ms) : complete ls <+: complete ms := by
  obtain ⟨rest, rfl⟩ := h
  fun_induction complete ls with
  | case1 forms levels hlt =>
    rw [List.cons_append, complete, if_pos hlt]
    exact List.prefix_append (_ :: levels) rest
  | case2 forms levels hlt ih =>
    rw [List.cons_append, complete, if_neg hlt]
    exact ih
  | case3 levels hother =>
    cases levels with
    | nil => exact List.nil_prefix
    | cons level levels =>
      cases level with
      | delimiter => exact List.prefix_append _ rest
      | awaiting forms => exact absurd rfl (hother forms levels)

theorem tail_dropWhile_isPrefix (h : ls <+: ms) :
    (ls.dropWhile Level.isAwaiting).tail <+: (ms.dropWhile Level.isAwaiting).tail := by
  obtain ⟨rest, rfl⟩ := h
  induction ls with
  | nil => exact List.nil_prefix
  | cons level ls ih =>
    cases level with
    | delimiter => exact List.prefix_append ls rest
    | awaiting forms => exact ih

theorem step_isPrefix (h : ls <+: ms) (role : Role) : step ls role <+: step ms role := by
  cases role with
  | opens => exact (List.prefix_cons_inj _).2 h
  | awaits forms => exact (List.prefix_cons_inj _).2 h
  | completes => exact complete_isPrefix h
  | closes =>
    apply complete_isPrefix
    exact tail_dropWhile_isPrefix h

theorem Shallow.of_isPrefix (h : Shallow ms ts) (hfront : ls <+: ms) : Shallow ls ts := by
  induction ts generalizing ls ms with
  | nil => exact shallow_nil ls
  | cons t ts ih =>
    rw [shallow_cons_iff] at h ⊢
    have hstep := step_isPrefix hfront (roleOf t)
    exact ⟨Nat.le_trans hstep.length_le h.1, ih h.2 hstep⟩

def EndsForm (ks : List TokenKind) : Prop :=
  ∀ k ∈ ks.getLast?, role k = .closes ∨ role k = .completes

theorem EndsForm.append (h : EndsForm ks) (h' : EndsForm js) : EndsForm (ks ++ js) := by
  intro k hk
  rw [List.getLast?_append] at hk
  rcases Option.or_eq_some_iff.1 hk with hlast | ⟨-, hlast⟩
  · exact h' k hlast
  · exact h k hlast

theorem endsForm_concat (ks : List TokenKind) {k : TokenKind}
    (h : role k = .closes ∨ role k = .completes) : EndsForm (ks ++ [k]) := by
  intro j hj
  rw [List.getLast?_concat] at hj
  obtain rfl := Option.some.inj hj
  exact h

theorem endsForm_leavesAll {ds : List Derivation} (h : ∀ d ∈ ds, EndsForm d.leaves) :
    EndsForm (Rose.leavesAll ds) := by
  induction ds with
  | nil => exact nofun
  | cons d ds ih =>
    obtain ⟨hd, hds⟩ := List.forall_mem_cons.1 h
    exact hd.append (ih hds)

theorem Formed.ne_nil {d : Derivation} (h : Formed d) (hroot : d.root ≠ .rule .forms) :
    d.leaves ≠ [] := by
  induction h with
  | choice _ hforms _ ih =>
    rw [Rose.leaves, Rose.leavesAll, Rose.leavesAll, List.append_nil]
    exact ih hforms
  | single | enclosed | awaiting => exact List.cons_ne_nil _ _
  | forms => exact absurd rfl hroot

theorem Formed.endsForm {d : Derivation} (h : Formed d) : EndsForm d.leaves := by
  induction h with
  | choice _ _ _ ih => exact endsForm_leavesAll (List.forall_mem_singleton.2 ih)
  | @single r k _ hk => exact endsForm_concat [] (.inr hk)
  | @enclosed r j k d _ _ hk _ _ _ =>
    have hleaves : Rose.leaves (.node r [.leaf j, d, .leaf k]) = (j :: d.leaves) ++ [k] := by
      simp [Rose.leaves, Rose.leavesAll]
    rw [hleaves]
    exact endsForm_concat _ (.inl hk)
  | @awaiting r k ds _ _ hne _ hroots hformed ih =>
    obtain ⟨d, ds, rfl⟩ := List.exists_cons_of_ne_nil hne
    obtain ⟨hd, -⟩ := List.forall_mem_cons.1 hroots
    have hfirst := (hformed d (List.mem_cons_self ..)).ne_nil hd
    have hforms : Rose.leavesAll (d :: ds) ≠ [] := List.append_ne_nil_of_left_ne_nil hfirst _
    intro j hj
    have hlast : j ∈ (Rose.leavesAll (d :: ds)).getLast? := by
      rwa [← List.getLast?_cons_of_ne_nil hforms]
    exact endsForm_leavesAll ih j hlast
  | forms _ _ ih => exact endsForm_leavesAll ih

theorem Padded.complete_eq_nil (h : Padded ls ms) (hls : Nesting.complete ls = []) :
    Nesting.complete ms = [] := by
  induction h with
  | nil => rfl
  | @same ls ms level _ ih =>
    cases level with
    | delimiter => cases hls
    | awaiting forms =>
      rw [Nesting.complete] at hls ⊢
      split at hls
      · cases hls
      · next hlast => rw [if_neg hlast, ih hls]
  | extra _ ih => exact ih hls

theorem after_eq_nil_of_recut {d : Derivation} (h : Formed d) (hrecut : Recut d.leaves js) :
    after [] js = [] := by
  have hends : after [] d.leaves = [] := (h.completes [] fun _ => rfl).after_eq
  rcases List.eq_nil_or_concat d.leaves with hnil | ⟨front, k, hleaves⟩
  · rw [hnil] at hrecut
    cases hrecut
    rfl
  · rw [List.concat_eq_append] at hleaves
    have hrole := h.endsForm k (by rw [hleaves]; exact List.getLast?_concat)
    rw [hleaves] at hrecut hends
    obtain ⟨front', back', rfl, hfront, hback⟩ := hrecut.split
    have hpadded := Padded.after hfront .nil
    rw [after_append] at hends ⊢
    cases hback with
    | same _ hrest =>
      cases hrest
      rcases hrole with hk | hk
      · simp only [after, List.foldl_cons, List.foldl_nil, hk, step] at hends ⊢
        exact hpadded.tail_dropWhile.complete_eq_nil hends
      · simp only [after, List.foldl_cons, List.foldl_nil, hk, step] at hends ⊢
        exact hpadded.complete_eq_nil hends
    | reread => rcases hrole with hk | hk <;> cases hk

end HiccupReader.Clojure.Nesting
