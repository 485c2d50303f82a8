import HiccupReader.Clojure.Nesting
import HiccupReader.Proofs.Clojure.Leads

/-! The depth that is counted on tokens is never more than the nesting of a derivation that they
have: a form leads back to the levels before it, less the reader macros that it completes. -/

namespace HiccupReader.Clojure.Nesting

theorem roleOf_eq {token : Token} {k : TokenKind} (h : token.rule = k.index) :
    roleOf token = role k := by
  rw [roleOf, h, TokenKind.ofIndex?_index]
  rfl

inductive Runs (bound : Nat) : List Level → List TokenKind → List Level → Prop
  | done (levels : List Level) : Runs bound levels [] levels
  | token {k : TokenKind} {ks : List TokenKind} {levels levels' : List Level} :
    (step levels (role k)).length ≤ bound → Runs bound (step levels (role k)) ks levels' →
      Runs bound levels (k :: ks) levels'

namespace Runs

variable {bound bound' : Nat} {levels levels₁ levels₂ : List Level} {ks js : List TokenKind}

theorem append (h : Runs bound levels ks levels₁) (h' : Runs bound levels₁ js levels₂) :
    Runs bound levels (ks ++ js) levels₂ := by
  induction h with
  | done levels => exact h'
  | token hstep _ ih => exact .token hstep (ih h')

theorem mono (hle : bound ≤ bound') (h : Runs bound levels ks levels₁) :
    Runs bound' levels ks levels₁ := by
  induction h with
  | done levels => exact .done levels
  | token hstep _ ih => exact .token (Nat.le_trans hstep hle) ih

theorem depths_le (h : Runs bound levels ks levels₁) {tokens : List Token}
    (hkinds : tokens.map Token.rule = ks.map TokenKind.index) :
    ∀ entry ∈ depths levels tokens, entry.1 ≤ bound := by
  induction h generalizing tokens with
  | done levels =>
    obtain rfl := List.map_eq_nil_iff.1 hkinds
    simp [depths]
  | @token k ks levels levels' hstep _ ih =>
    obtain ⟨token, rest, rfl, hrule, hrest⟩ := List.map_eq_cons_iff.1 hkinds
    rw [depths, roleOf_eq hrule]
    exact List.forall_mem_cons.2 ⟨hstep, ih hrest⟩

end Runs

theorem complete_length_le (levels : List Level) : (complete levels).length ≤ levels.length := by
  fun_induction complete levels with
  | case1 forms levels h => exact Nat.le_refl _
  | case2 forms levels h ih => exact Nat.le_succ_of_le ih
  | case3 levels h => exact Nat.le_refl _

/-- The tokens of the derivation are one form for the levels they find, or a run of forms that is
in no need of completing any. -/
def Completes (d : Derivation) : Prop :=
  ∀ levels, (d.root = .rule .forms → complete levels = levels) →
    Runs (levels.length + d.nesting) levels d.leaves (complete levels)

theorem completes_single {k : TokenKind} (hk : role k = .completes) {r : Rule} :
    Completes (.node r [.leaf k]) := by
  intro levels _
  apply Runs.token
  · rw [hk]
    exact Nat.le_add_right_of_le (complete_length_le levels)
  · rw [hk]
    exact .done _

theorem completes_choice {r : Rule} {d : Derivation} (hforms : d.root ≠ .rule .forms)
    (h : Completes d) : Completes (.node r [d]) := by
  intro levels _
  have hruns := h levels fun hroot => absurd hroot hforms
  rw [Rose.leaves, Rose.leavesAll, Rose.leavesAll, List.append_nil]
  refine hruns.mono (Nat.add_le_add_left ?_ _)
  rw [Derivation.nesting, Derivation.nestingAll, Derivation.nestingAll]
  omega

theorem completes_enclosed {j k : TokenKind} (hj : role j = .opens) (hk : role k = .closes)
    {r : Rule} (hr : r.nests = true) {d : Derivation} (h : Completes d) :
    Completes (.node r [.leaf j, d, .leaf k]) := by
  intro levels _
  have hnesting : Derivation.nesting (.node r [.leaf j, d, .leaf k]) = 1 + d.nesting := by
    simp [Derivation.nesting, Derivation.nestingAll, hr]
  -- Nothing is pending right after the delimiter, so that the forms lead back to it.
  have hinside := h (.delimiter :: levels) fun _ => rfl
  have hclose : step (complete (.delimiter :: levels)) (role k) = complete levels := by
    rw [hk]
    rfl
  have hend : Runs (levels.length + (1 + d.nesting)) (complete (.delimiter :: levels)) [k]
      (complete levels) := by
    have hle := complete_length_le levels
    apply Runs.token
    · rw [hclose]
      omega
    · rw [hclose]
      exact .done _
  rw [hnesting]
  apply Runs.token
  · rw [hj, step, List.length_cons]
    omega
  · rw [hj]
    refine (hinside.mono ?_).append hend
    rw [List.length_cons]
    omega

theorem runs_awaited {ds : List Derivation} (hne : ds ≠ [])
    (hds : ∀ d ∈ ds, d.root ≠ .rule .forms ∧ Completes d) (levels : List Level) :
    Runs (levels.length + 1 + Derivation.nestingAll ds) (.awaiting ds.length :: levels)
      (Rose.leavesAll ds) (complete levels) := by
  induction ds with
  | nil => exact absurd rfl hne
  | cons d ds ih =>
    obtain ⟨⟨hroot, hd⟩, hrest⟩ := List.forall_mem_cons.1 hds
    have hfirst := hd (.awaiting (d :: ds).length :: levels) fun hforms => absurd hforms hroot
    rw [Rose.leavesAll]
    -- The first form leaves one form less to await, or completes the macro if it is the last.
    refine (hfirst.mono (Nat.add_le_add_left (Nat.le_max_left _ _) _)).append ?_
    cases ds with
    | nil => exact .done _
    | cons e es =>
      refine (ih (List.cons_ne_nil e es) hrest).mono (Nat.add_le_add_left ?_ _)
      exact Nat.le_max_right _ _

theorem completes_awaiting {k : TokenKind} {ds : List Derivation} (hne : ds ≠ [])
    (hk : role k = .awaits ds.length) {r : Rule} (hr : r.nests = true)
    (hds : ∀ d ∈ ds, d.root ≠ .rule .forms ∧ Completes d) :
    Completes (.node r (.leaf k :: ds)) := by
  intro levels _
  have hnesting : Derivation.nesting (.node r (.leaf k :: ds)) = 1 + Derivation.nestingAll ds := by
    simp [Derivation.nesting, Derivation.nestingAll, hr]
  rw [hnesting]
  apply Runs.token
  · rw [hk, step, List.length_cons]
    omega
  · rw [hk, ← Nat.add_assoc]
    exact runs_awaited hne hds levels

theorem completes_forms {ds : List Derivation}
    (hds : ∀ d ∈ ds, d.root ≠ .rule .forms ∧ Completes d) : Completes (.node .forms ds) := by
  intro levels hlevels
  have hnesting : Derivation.nesting (.node .forms ds) = Derivation.nestingAll ds :=
    Nat.zero_add _
  have hidle : complete levels = levels := hlevels rfl
  clear hlevels
  rw [hnesting, hidle, Rose.leaves]
  clear hnesting
  induction ds with
  | nil => exact .done _
  | cons d ds ih =>
    obtain ⟨⟨hroot, hd⟩, hrest⟩ := List.forall_mem_cons.1 hds
    have hfirst := hd levels fun hforms => absurd hforms hroot
    rw [hidle] at hfirst
    rw [Rose.leavesAll]
    refine (hfirst.mono ?_).append ((ih hrest).mono ?_)
    · exact Nat.add_le_add_left (Nat.le_max_left _ _) _
    · exact Nat.add_le_add_left (Nat.le_max_right _ _) _

def nestable : Symbol → Bool
  | .rule r => (Symbol.rule r).inner
  | .token _ => false

/-- The productions of nestable rules by what their first token does. -/
inductive Shape (r : Rule) : Prop
  | choice {options : List Symbol} : r.production = .choice options →
    (∀ s ∈ options, s ≠ .rule .forms ∧ nestable s = true) → Shape r
  | single {k : TokenKind} : r.production = .single k → role k = .completes → Shape r
  | enclosed {j k : TokenKind} : r.production = .enclosed j k → role j = .opens →
    role k = .closes → r.nests = true → Shape r
  | awaiting {k : TokenKind} (ss : List Symbol) :
    r.production = .sequence ((.token k :: ss).map .one) → role k = .awaits ss.length →
      ss ≠ [] → (∀ s ∈ ss, s ≠ .rule .forms ∧ nestable s = true) → r.nests = true → Shape r
  | forms : r = .forms → Shape r

theorem Shape.of_nestable {r : Rule} (h : nestable (.rule r) = true) : Shape r := by
  cases r with
  | code | tokens => cases h
  | forms => exact .forms rfl
  | form | collection | readerMacro | literal => exact .choice rfl (by decide)
  | number | character | nil | boolean | keyword | string | regex | symbolicValue | symbol =>
    exact .single rfl rfl
  | list | vector | map | set | fnLiteral | readerConditional =>
    exact .enclosed rfl rfl rfl rfl
  | metadata =>
    exact .awaiting [_, _] rfl rfl (List.cons_ne_nil _ _) (by decide) rfl
  | _ => exact .awaiting [_] rfl rfl (List.cons_ne_nil _ _) (by decide) rfl

inductive Formed : Derivation → Prop
  | choice {r : Rule} {options : List Symbol} {d : Derivation} : r.production = .choice options →
    d.root ≠ .rule .forms → Formed d → Formed (.node r [d])
  | single {r : Rule} {k : TokenKind} : r.production = .single k → role k = .completes →
    Formed (.node r [.leaf k])
  | enclosed {r : Rule} {j k : TokenKind} {d : Derivation} : r.production = .enclosed j k →
    role j = .opens → role k = .closes → r.nests = true → Formed d →
      Formed (.node r [.leaf j, d, .leaf k])
  | awaiting {r : Rule} {k : TokenKind} {ds : List Derivation} :
    r.production = .sequence ((.token k :: ds.map Derivation.root).map .one) →
      role k = .awaits ds.length → ds ≠ [] → r.nests = true →
        (∀ d ∈ ds, d.root ≠ .rule .forms) → (∀ d ∈ ds, Formed d) → Formed (.node r (.leaf k :: ds))
  | forms {ds : List Derivation} : (∀ d ∈ ds, d.root = .rule .form) → (∀ d ∈ ds, Formed d) →
    Formed (.node .forms ds)

theorem formed_of_valid {d : Derivation} (h : d.Valid) (hnestable : nestable d.root = true) :
    Formed d := by
  induction h with
  | token k => cases hnestable
  | @rule r ds hallows _ ih =>
    cases Shape.of_nestable hnestable with
    | choice hr hoptions =>
      rw [hr] at hallows
      obtain ⟨s, hs, hroots⟩ := hallows
      obtain ⟨d, rfl, rfl⟩ := List.map_eq_singleton_iff.1 hroots
      obtain ⟨hforms, hd⟩ := hoptions d.root hs
      exact .choice hr hforms (ih d (List.mem_singleton_self d) hd)
    | @single k hr hk =>
      rw [hr] at hallows
      have hroots : ds.map Derivation.root = [.token k] := AllowsInOrder.of_ones hallows
      obtain ⟨d, rfl, hroot⟩ := List.map_eq_singleton_iff.1 hroots
      obtain rfl := Derivation.eq_leaf_of_root hroot
      exact .single hr hk
    | @enclosed j k hr hj hk hnests =>
      rw [hr] at hallows
      have hroots : ds.map Derivation.root = [.token j, .rule .forms, .token k] :=
        AllowsInOrder.of_ones hallows
      obtain ⟨d, es, rfl, hopen, hroots⟩ := List.map_eq_cons_iff.1 hroots
      obtain ⟨e, fs, rfl, hforms, hroots⟩ := List.map_eq_cons_iff.1 hroots
      obtain ⟨f, rfl, hclose⟩ := List.map_eq_singleton_iff.1 hroots
      obtain rfl := Derivation.eq_leaf_of_root hopen
      obtain rfl := Derivation.eq_leaf_of_root hclose
      exact .enclosed hr hj hk hnests (ih e (by simp) (by rw [hforms]; rfl))
    | @awaiting k ss hr hk hne hss hnests =>
      rw [hr] at hallows
      obtain ⟨d, es, rfl, hmark, rfl⟩ := List.map_eq_cons_iff.1 hallows.of_ones
      obtain rfl := Derivation.eq_leaf_of_root hmark
      rw [List.length_map] at hk
      have hoptions : ∀ d ∈ es, d.root ≠ .rule .forms ∧ nestable d.root = true :=
        fun d hd => hss d.root (List.mem_map_of_mem hd)
      exact .awaiting hr hk (by simpa using hne) hnests (fun d hd => (hoptions d hd).1)
        fun d hd => ih d (List.mem_cons_of_mem _ hd) (hoptions d hd).2
    | forms hr =>
      subst hr
      have hroots : ∀ d ∈ ds, d.root = .rule .form := fun d hd =>
        List.mem_singleton.1 (AllowsInOrder.of_single hallows _ (List.mem_map_of_mem hd))
      exact .forms hroots fun d hd => ih d hd (by rw [hroots d hd]; rfl)

theorem Formed.completes {d : Derivation} (h : Formed d) : Completes d := by
  induction h with
  | choice _ hroot _ ih => exact completes_choice hroot ih
  | single _ hk => exact completes_single hk
  | enclosed _ hj hk hnests _ ih => exact completes_enclosed hj hk hnests ih
  | awaiting _ hk hne hnests hroots _ ih =>
    exact completes_awaiting hne hk hnests fun d hd => ⟨hroots d hd, ih d hd⟩
  | forms hroots _ ih =>
    exact completes_forms fun d hd => ⟨by rw [hroots d hd]; decide, ih d hd⟩

def Shallow (levels : List Level) (tokens : List Token) : Prop :=
  ∀ entry ∈ depths levels tokens, entry.1 ≤ limit

theorem shallow_nil (levels : List Level) : Shallow levels [] := by
  simp [Shallow, depths]

theorem shallow_cons_iff {levels : List Level} {token : Token} {tokens : List Token} :
    Shallow levels (token :: tokens) ↔ (step levels (roleOf token)).length ≤ limit ∧
      Shallow (step levels (roleOf token)) tokens := by
  rw [Shallow, depths]
  exact List.forall_mem_cons

theorem firstTooDeep?_eq_none_iff {tokens : List Token} :
    firstTooDeep? tokens = none ↔ Shallow [] tokens := by
  rw [firstTooDeep?, Option.map_eq_none_iff, List.find?_eq_none]
  simp [Shallow]

theorem firstTooDeep?_eq_none {d : Derivation} (h : d.Valid) (hroot : d.root = .rule .forms)
    (hnesting : d.nesting ≤ limit) {tokens : List Token}
    (hkinds : tokens.map Token.rule = d.leaves.map TokenKind.index) :
    firstTooDeep? tokens = none := by
  have hruns := (formed_of_valid h (by rw [hroot]; rfl)).completes [] fun _ => rfl
  have hdepths := hruns.depths_le hkinds
  rw [List.length_nil, Nat.zero_add] at hdepths
  exact firstTooDeep?_eq_none_iff.2 fun entry hentry => Nat.le_trans (hdepths entry hentry) hnesting

theorem Shallow.of_rules {levels : List Level} {ts us : List Token}
    (hrules : us.map Token.rule = ts.map Token.rule) (h : Shallow levels ts) :
    Shallow levels us := by
  induction ts generalizing us levels with
  | nil =>
    obtain rfl := List.map_eq_nil_iff.1 hrules
    exact h
  | cons t ts ih =>
    obtain ⟨u, us, rfl, hrule, hrest⟩ := List.map_eq_cons_iff.1 hrules
    have hrole : roleOf u = roleOf t := by rw [roleOf, roleOf, hrule]
    rw [shallow_cons_iff, hrole]
    rw [shallow_cons_iff] at h
    exact ⟨h.1, ih hrest h.2⟩

theorem firstTooDeep?_eq_none_of_rules {ts us : List Token}
    (hrules : us.map Token.rule = ts.map Token.rule) (h : firstTooDeep? ts = none) :
    firstTooDeep? us = none := by
  rw [firstTooDeep?_eq_none_iff] at h ⊢
  exact h.of_rules hrules

end HiccupReader.Clojure.Nesting
