import HiccupReader.Layout.Basic

/-! The layout of a tree by recursion on the tree. A leaf is its text. A rule is its name and what
its children contribute, in order; an inlined child contributes its parts, any other child
itself. The root is never inlined. A node is checked before its children. -/

namespace HiccupReader.Layout

mutual

def contribution (layout : Layout) : Tree → Except Fault (List Hiccup)
  | .leaf token => do
    let h ← layout.leaf token
    return [h]
  | .node found children => do
    let entry ← layout.ruleEntry found children.length
    let parts ← layout.contributions children
    return if layout.inlines found.rule entry then parts else [.node entry.name parts]

def contributions (layout : Layout) : List Tree → Except Fault (List Hiccup)
  | [] => .ok []
  | child :: children => do
    let first ← layout.contribution child
    let others ← layout.contributions children
    return first ++ others

end

def hiccup (layout : Layout) : Tree → Except Fault Hiccup
  | .leaf token => layout.leaf token
  | .node found children => do
    let entry ← layout.ruleEntry found children.length
    let parts ← layout.contributions children
    return .node entry.name parts

end HiccupReader.Layout
