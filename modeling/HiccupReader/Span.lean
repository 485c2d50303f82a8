/-! Byte ranges of a text: from `start` up to and without `stop`. -/

namespace HiccupReader

structure Span where
  start : Nat
  stop : Nat
  deriving DecidableEq

namespace Span

def length (s : Span) : Nat := s.stop - s.start

def isEmpty (s : Span) : Bool := s.length == 0

end Span
end HiccupReader
