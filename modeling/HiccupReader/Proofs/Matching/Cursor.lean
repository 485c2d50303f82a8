import HiccupReader.Matching.Cursor

/-! Places in one text in the order in which they are reached. -/

namespace HiccupReader.Matching.Cursor

def Reaches (c c' : Cursor) : Prop :=
  ∃ taken, taken ++ c'.rest = c.rest ∧ c'.offset = c.offset + Text.byteLength taken

theorem reaches_advance (c : Cursor) {taken left : List Char} (h : taken ++ left = c.rest) :
    c.Reaches (c.advance taken left) := ⟨taken, h, rfl⟩

theorem advance_advance (c : Cursor) (taken more left mid : List Char) :
    (c.advance taken mid).advance more left = c.advance (taken ++ more) left := by
  rw [advance, advance, advance, Text.byteLength_append, Nat.add_assoc]

namespace Reaches

variable {c c₁ c₂ : Cursor}

theorem refl (c : Cursor) : c.Reaches c := ⟨[], rfl, rfl⟩

theorem trans (h : c.Reaches c₁) (h' : c₁.Reaches c₂) : c.Reaches c₂ := by
  obtain ⟨first, hfirst, ho⟩ := h
  obtain ⟨second, hsecond, ho'⟩ := h'
  refine ⟨first ++ second, by rw [List.append_assoc, hsecond, hfirst], ?_⟩
  rw [ho', ho, Text.byteLength_append, Nat.add_assoc]

theorem length_le (h : c.Reaches c₁) : c₁.rest.length ≤ c.rest.length := by
  obtain ⟨taken, htaken, -⟩ := h
  rw [← htaken, List.length_append]
  omega

theorem offset_le (h : c.Reaches c₁) : c.offset ≤ c₁.offset := by
  obtain ⟨taken, -, ho⟩ := h
  omega

theorem end_eq (h : c.Reaches c₁) :
    c₁.offset + Text.byteLength c₁.rest = c.offset + Text.byteLength c.rest := by
  obtain ⟨taken, htaken, ho⟩ := h
  rw [← htaken, Text.byteLength_append, ho, Nat.add_assoc]

end Reaches
end HiccupReader.Matching.Cursor
