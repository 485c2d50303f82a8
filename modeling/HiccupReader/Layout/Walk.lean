import HiccupReader.Layout.Basic

/-! The layout of a tree by a walk that keeps the rules in progress on a stack, so that a deep
tree takes no deep recursion. -/

namespace HiccupReader.Layout

/-- A rule in progress: the children still to come and, unless the rule is inlined, its name with
its parts so far, the last one first. -/
structure Frame where
  pending : List Tree
  sequence? : Option (String × List Hiccup)

namespace Frame

def opened (name : String) (children : List Tree) : Frame := ⟨children, some (name, [])⟩

def inlined (children : List Tree) : Frame := ⟨children, none⟩

/-- Each step of the walk makes the sum of these smaller. -/
def weight (frame : Frame) : Nat := 2 * Rose.countAll frame.pending + 1

end Frame

def addPart (part : Hiccup) : List Frame → Option (List Frame)
  | [] => none
  | ⟨pending, some (name, parts)⟩ :: around =>
    some (⟨pending, some (name, part :: parts)⟩ :: around)
  | ⟨pending, none⟩ :: around => (addPart part around).map (⟨pending, none⟩ :: ·)

def totalWeight : List Frame → Nat
  | [] => 0
  | frame :: frames => frame.weight + totalWeight frames

theorem totalWeight_addPart {part : Hiccup} {frames grown : List Frame}
    (h : addPart part frames = some grown) : totalWeight grown = totalWeight frames := by
  induction frames generalizing grown with
  | nil => cases h
  | cons frame around ih =>
    obtain ⟨pending, _ | ⟨name, parts⟩⟩ := frame
    · obtain ⟨rest, hrest, rfl⟩ := Option.map_eq_some_iff.1 h
      rw [totalWeight, totalWeight, ih hrest]
    · obtain rfl := Option.some.inj h
      rfl

def resume (layout : Layout) : List Frame → Except Fault Hiccup
  | [] => .error .lostRoot
  | ⟨[], none⟩ :: around => resume layout around
  | [⟨[], some (name, parts)⟩] => .ok (.node name parts.reverse)
  | ⟨[], some (name, parts)⟩ :: next :: around =>
    match _h : addPart (.node name parts.reverse) (next :: around) with
    | none => .error .noSequence
    | some frames => resume layout frames
  | ⟨.leaf token :: pending, sequence?⟩ :: around =>
    match layout.leaf token with
    | .error fault => .error fault
    | .ok leaf =>
      match _h : addPart leaf (⟨pending, sequence?⟩ :: around) with
      | none => .error .noSequence
      | some frames => resume layout frames
  | ⟨.node found children :: pending, sequence?⟩ :: around =>
    match layout.ruleEntry found children.length with
    | .error fault => .error fault
    | .ok entry =>
      if layout.inlines found.rule entry then
        resume layout (.inlined children :: ⟨pending, sequence?⟩ :: around)
      else
        resume layout (.opened entry.name children :: ⟨pending, sequence?⟩ :: around)
termination_by frames => totalWeight frames
decreasing_by
  all_goals
    first | rw [totalWeight_addPart _h] | skip
    simp only [totalWeight, Frame.weight, Frame.inlined, Frame.opened, Rose.countAll, Rose.count]
    omega

def walk (layout : Layout) : Tree → Except Fault Hiccup
  | .leaf token => layout.leaf token
  | .node found children =>
    match layout.ruleEntry found children.length with
    | .error fault => .error fault
    | .ok entry => layout.resume [.opened entry.name children]

end HiccupReader.Layout
