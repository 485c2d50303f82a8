import HiccupReader.Layout.Walk
import HiccupReader.Proofs.Layout.Faults

/-! The walk lays a tree out as the recursion does. The rules in progress stand for the calls that
the recursion has suspended: each of them still owes its rule the parts of its pending children,
and an inlined rule owes them to the sequence around it. -/

namespace HiccupReader.Layout

variable {layout : Layout}

/-- What becomes of the rules in progress by recursion. The parts given are those that the
innermost sequence gets next. -/
def finish (layout : Layout) : List Frame → List Hiccup → Except Fault Hiccup
  | [], _ => .error .lostRoot
  | ⟨pending, none⟩ :: around, parts => do
    let more ← layout.contributions pending
    finish layout around (parts ++ more)
  | [⟨pending, some (name, before)⟩], parts => do
    let more ← layout.contributions pending
    return .node name (before.reverse ++ (parts ++ more))
  | ⟨pending, some (name, before)⟩ :: next :: around, parts => do
    let more ← layout.contributions pending
    finish layout (next :: around) [.node name (before.reverse ++ (parts ++ more))]

/-- The outermost rule in progress has a sequence of its own, as the root is never inlined. -/
def Rooted (frames : List Frame) : Prop :=
  ∃ frame ∈ frames.getLast?, frame.sequence?.isSome = true

theorem Rooted.cons {frames : List Frame} (h : Rooted frames) (frame : Frame) :
    Rooted (frame :: frames) := by
  obtain ⟨last, hlast, hopen⟩ := h
  exact ⟨last, by simp [List.getLast?_cons, Option.mem_def.1 hlast], hopen⟩

theorem Rooted.tail {frame next : Frame} {around : List Frame}
    (h : Rooted (frame :: next :: around)) : Rooted (next :: around) := by
  obtain ⟨last, hlast, hopen⟩ := h
  exact ⟨last, by rwa [List.getLast?_cons_cons] at hlast, hopen⟩

theorem Rooted.advance {pending later : List Tree} {sequence? : Option (String × List Hiccup)}
    {around : List Frame} (h : Rooted (⟨pending, sequence?⟩ :: around)) :
    Rooted (⟨later, sequence?⟩ :: around) := by
  cases around with
  | nil => simpa [Rooted] using h
  | cons next around => exact h.tail.cons _

theorem Rooted.exists_addPart {frames : List Frame} (h : Rooted frames) (layout : Layout)
    (part : Hiccup) :
    ∃ grown, addPart part frames = some grown ∧ Rooted grown ∧
      ∀ parts, layout.finish grown parts = layout.finish frames (part :: parts) := by
  induction frames with
  | nil => simp [Rooted] at h
  | cons frame around ih =>
    obtain ⟨pending, _ | ⟨name, before⟩⟩ := frame
    · cases around with
      | nil => simp [Rooted] at h
      | cons next around =>
        obtain ⟨grown, hgrown, hrooted, hfinish⟩ := ih h.tail
        refine ⟨⟨pending, none⟩ :: grown, by rw [addPart, hgrown, Option.map_some],
          hrooted.cons _, fun parts => ?_⟩
        simp only [finish, hfinish, List.cons_append]
    · refine ⟨⟨pending, some (name, part :: before)⟩ :: around, rfl, ?_, fun parts => ?_⟩
      · cases around with
        | nil => simp [Rooted]
        | cons next around => exact h.tail.cons _
      · cases around with
        | nil => simp [finish]
        | cons next around => simp [finish]

theorem contribution_leaf (token : Token) :
    layout.contribution (.leaf token) = (layout.leaf token).map fun leaf => [leaf] := by
  rw [contribution]
  cases layout.leaf token with
  | error fault => rfl
  | ok leaf => rfl

theorem finish_child (child : Tree) (pending : List Tree)
    (sequence? : Option (String × List Hiccup)) (around : List Frame) (parts : List Hiccup) :
    layout.finish (⟨child :: pending, sequence?⟩ :: around) parts =
      layout.contribution child >>= fun first =>
        layout.finish (⟨pending, sequence?⟩ :: around) (parts ++ first) := by
  rcases sequence? with _ | ⟨name, before⟩
  · simp [finish, contributions]
  · cases around with
    | nil => simp [finish, contributions]
    | cons next around => simp [finish, contributions]

theorem finish_inlined (children : List Tree) (frames : List Frame) :
    layout.finish (.inlined children :: frames) [] =
      layout.contributions children >>= fun parts => layout.finish frames parts := by
  simp [finish, Frame.inlined]

theorem finish_opened (name : String) (children : List Tree) (next : Frame)
    (around : List Frame) :
    layout.finish (.opened name children :: next :: around) [] =
      layout.contributions children >>= fun parts =>
        layout.finish (next :: around) [.node name parts] := by
  simp [finish, Frame.opened]

theorem resume_eq_finish {frames : List Frame} (h : Rooted frames) :
    layout.resume frames = layout.finish frames [] := by
  -- By induction on the walk. Whatever it adds finds a sequence, because the stack stays rooted.
  fun_induction resume layout frames with
  | case1 => simp [Rooted] at h
  | case2 around ih =>
    cases around with
    | nil => simp [Rooted] at h
    | cons next around =>
      rw [ih h.tail]
      simp [finish, contributions]
  | case3 name parts => simp [finish, contributions]
  | case4 name parts next around hnone =>
    obtain ⟨grown, hgrown, -⟩ := h.tail.exists_addPart layout (.node name parts.reverse)
    rw [hnone] at hgrown
    cases hgrown
  | case5 name parts next around frames hframes ih =>
    obtain ⟨grown, hgrown, hrooted, hfinish⟩ :=
      h.tail.exists_addPart layout (.node name parts.reverse)
    obtain rfl := Option.some.inj (hframes.symm.trans hgrown)
    rw [ih hrooted, hfinish]
    simp [finish, contributions]
  | case6 token pending sequence? around fault hleaf =>
    rw [finish_child, contribution_leaf, hleaf]
    rfl
  | case7 token pending sequence? around leaf hleaf hnone =>
    obtain ⟨grown, hgrown, -⟩ := h.advance.exists_addPart layout leaf
    rw [hnone] at hgrown
    cases hgrown
  | case8 token pending sequence? around leaf hleaf frames hframes ih =>
    obtain ⟨grown, hgrown, hrooted, hfinish⟩ := h.advance.exists_addPart layout leaf
    obtain rfl := Option.some.inj (hframes.symm.trans hgrown)
    rw [ih hrooted, hfinish, finish_child, contribution_leaf, hleaf]
    rfl
  | case9 found children pending sequence? around fault hentry =>
    rw [finish_child, contribution, hentry]
    rfl
  | case10 found children pending sequence? around entry hentry hinlines ih =>
    rw [ih (h.advance.cons _), finish_child, contribution, hentry, finish_inlined]
    simp [hinlines]
  | case11 found children pending sequence? around entry hentry hinlines ih =>
    rw [ih (h.advance.cons _), finish_child, contribution, hentry, finish_opened]
    simp [hinlines]

theorem walk_eq_hiccup (tree : Tree) : layout.walk tree = layout.hiccup tree := by
  cases tree with
  | leaf token => rw [walk, hiccup]
  | node found children =>
    rw [walk, hiccup]
    cases layout.ruleEntry found children.length with
    | error fault => rfl
    | ok entry =>
      have hrooted : Rooted [.opened entry.name children] := ⟨_, rfl, rfl⟩
      simp only [ok_bind, resume_eq_finish hrooted]
      simp [finish, Frame.opened]

end HiccupReader.Layout
