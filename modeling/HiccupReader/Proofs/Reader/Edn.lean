import HiccupReader.Proofs.Edn
import HiccupReader.Proofs.Layout.Names
import HiccupReader.Proofs.Reader.Respacing

/-! The EDN text of what a reader makes of a source. The names in it are names of the grammar, and
these are words, so that the text tells the value. -/

namespace HiccupReader

namespace Clojure

theorem Rule.isWord_name (r : Rule) : IsWord r.name := by cases r <;> decide +kernel

theorem TokenKind.isWord_name (k : TokenKind) : IsWord k.name := by cases k <;> decide +kernel

theorem isWord_of_mem_ruleTable {entry : RuleEntry} (h : entry ∈ ruleTable.entries) :
    IsWord entry.name := by
  rw [ruleTable, List.mem_append, List.mem_map, List.mem_map] at h
  obtain ⟨r, -, rfl⟩ | ⟨k, -, rfl⟩ := h
  · exact r.isWord_name
  · exact k.isWord_name

end Clojure

namespace Reader

variable {settings : Settings} {reader : Reader} {source : Source}

theorem namedByWords_of_read {h : Hiccup} (hreader : ofSettings settings = .ok reader)
    (hread : reader.read source = .ok h) : h.NamedByWords := by
  obtain ⟨tree, -, hwalk⟩ := read_eq_ok_iff.1 hread
  intro name hname
  obtain ⟨entry, hentry, rfl, -⟩ := Layout.hasParser_of_walk hwalk name hname
  rw [table_of_ofSettings hreader] at hentry
  exact Clojure.isWord_of_mem_ruleTable hentry

theorem plainReader_edn {text edn : String} (h : ((Clojure.parse text).toOption.bind fun tree =>
      (defaultLayout.hiccup tree).toOption).map Hiccup.edn = some edn) (name : String) :
    ∃ hiccup, plainReader.read ⟨name, text⟩ = .ok hiccup ∧ hiccup.edn = edn := by
  obtain ⟨hiccup, hread, hedn⟩ := Option.map_eq_some_iff.1 h
  obtain ⟨tree, htree, hlayout⟩ := Option.bind_eq_some_iff.1 hread
  have hparse : plainReader.parse ⟨name, text⟩ = .ok tree :=
    parse_eq_ok_iff.2 (Clojure.eq_ok_of_toOption htree)
  have hwalk : plainReader.layout.walk tree = .ok hiccup := by
    rw [Layout.walk_eq_hiccup]
    exact Clojure.eq_ok_of_toOption hlayout
  exact ⟨hiccup, read_eq_ok_iff.2 ⟨tree, hparse, hwalk⟩, hedn⟩

/-- The EDN text tells the value among all values whose names are words, as the names of the
grammar are. Whatever a reader reads is such a value. -/
theorem edn_determines_hiccup :
    (∀ h h' : Hiccup, h.NamedByWords → h'.NamedByWords → h.edn = h'.edn → h = h') ∧
    (∀ entry ∈ Clojure.ruleTable.entries, IsWord entry.name) ∧
    ∀ settings reader source h, ofSettings settings = .ok reader → reader.read source = .ok h →
      h.NamedByWords :=
  ⟨fun _ _ => Hiccup.eq_of_edn_eq, fun _ => Clojure.isWord_of_mem_ruleTable,
    fun _ _ _ _ => namedByWords_of_read⟩

theorem edn_determines_quotes :
    (∃ h h', ofSettings {} = .ok plainReader ∧
      plainReader.read ⟨"a.clj", "\"\\\"\";b"⟩ = .ok h ∧
      plainReader.read ⟨"b.clj", ",\"\\\"\""⟩ = .ok h' ∧ h.edn = h'.edn ∧ h = h') ∧
    Hiccup.edn (.node "string" [.leaf "a\" \"b"]) ≠
      Hiccup.edn (.node "string" [.leaf "a", .leaf "b"]) := by
  obtain ⟨hequal, -, hwords⟩ := edn_determines_hiccup
  have hreader : ofSettings {} = .ok plainReader := rfl
  constructor
  · have hbehind : ∃ h, plainReader.read ⟨"a.clj", "\"\\\"\";b"⟩ = .ok h ∧
        h.edn = "[:code [:form [:literal [:string \"\\\"\\\\\\\"\\\"\"]]]]" :=
      plainReader_edn (by decide +kernel) "a.clj"
    have hbefore : ∃ h, plainReader.read ⟨"b.clj", ",\"\\\"\""⟩ = .ok h ∧
        h.edn = "[:code [:form [:literal [:string \"\\\"\\\\\\\"\\\"\"]]]]" :=
      plainReader_edn (by decide +kernel) "b.clj"
    obtain ⟨h, hread, hedn⟩ := hbehind
    obtain ⟨h', hread', hedn'⟩ := hbefore
    have hsame : h.edn = h'.edn := hedn.trans hedn'.symm
    exact ⟨h, h', hreader, hread, hread', hsame,
      hequal h h' (hwords _ _ _ _ hreader hread) (hwords _ _ _ _ hreader hread') hsame⟩
  · intro hsame
    have hleaves := hequal _ _ (by decide +kernel) (by decide +kernel) hsame
    simp at hleaves

end Reader
end HiccupReader
