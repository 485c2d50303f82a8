import HiccupReader.Layout.Basic

/-! What a reader can be told: the layout policy, the names of further rules to inline, and
whether JSON is indented. -/

namespace HiccupReader

structure Settings where
  flatten : Layout.Policy := .passthrough
  splice : List String := []
  pretty : Bool := true
  deriving DecidableEq

end HiccupReader
