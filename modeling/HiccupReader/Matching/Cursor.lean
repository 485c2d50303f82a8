import HiccupReader.Text.Utf8

/-! A place in a text: how many bytes stand before it and which characters are left. -/

namespace HiccupReader.Matching

structure Cursor where
  offset : Nat
  rest : List Char

namespace Cursor

def start (text : List Char) : Cursor := ⟨0, text⟩

def advance (c : Cursor) (taken left : List Char) : Cursor :=
  ⟨c.offset + Text.byteLength taken, left⟩

@[simp] theorem advance_rest (c : Cursor) (taken left : List Char) :
    (c.advance taken left).rest = left := rfl

end Cursor
end HiccupReader.Matching
