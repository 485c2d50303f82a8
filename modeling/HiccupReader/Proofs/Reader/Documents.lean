import HiccupReader.Proofs.Hiccup
import HiccupReader.Proofs.Text.ByteOrder
import HiccupReader.Reader

/-! Several documents beside one reader. A single document is printed as the reader prints its
hiccup. Any other number of documents is read back, from either text, as one object in which the
last document of a name stands under that name. -/

namespace HiccupReader

namespace Documents

theorem Ascending.bytes {ms : List (String × Json)} (h : Ascending ms) :
    (ms.map Prod.fst).Pairwise fun a b => a.toUTF8.data.toList < b.toUTF8.data.toList :=
  List.pairwise_map.2 (h.imp Text.bytes_lt_iff.2)

theorem ofJson?_lookup_members (documents : List (String × Hiccup)) (name : String) :
    ((members documents).lookup name).bind Hiccup.ofJson? = documents.reverse.lookup name := by
  rw [lookup_members, Option.bind_map]
  cases documents.reverse.lookup name with
  | none => rfl
  | some h => exact Hiccup.ofJson?_toJson h

end Documents

namespace Reader

/-- One document is printed as the reader prints its hiccup. Otherwise both texts are read back as
one object whose keys are the names of the documents, in ascending order of their bytes. -/
theorem documents_as_reader_prints (reader : Reader) (documents : List (String × Hiccup)) :
    (∀ name h, Documents.text [(name, h)] reader.settings.pretty = reader.json h) ∧
    (documents.length ≠ 1 → ∃ members,
      (∀ pretty, Json.read? (Documents.text documents pretty) = some (.object members)) ∧
      (∀ name, name ∈ members.map Prod.fst ↔ name ∈ documents.map Prod.fst) ∧
      (members.map Prod.fst).Pairwise (fun a b => a.toUTF8.data.toList < b.toUTF8.data.toList) ∧
      ∀ name, (members.lookup name).bind Hiccup.ofJson? = documents.reverse.lookup name) := by
  refine ⟨fun name h => (h.json_eq_text reader.settings.pretty).symm, fun hcount => ?_⟩
  refine ⟨Documents.members documents, fun pretty => ?_, Documents.mem_keys_members_iff documents,
    (Documents.ascending_members documents).bytes, Documents.ofJson?_lookup_members documents⟩
  rw [← Documents.toJson_of_length_ne_one hcount]
  exact Json.read?_text ..

def namedTwice : List (String × Hiccup) :=
  [("é", .leaf "first"), ("z", .node "code" []), ("é", .node "code" [.leaf "\""]), ("", .leaf "")]

theorem namedTwice_shows_last : namedTwice.length ≠ 1 ∧ ∃ members,
    (∀ pretty, Json.read? (Documents.text namedTwice pretty) = some (.object members)) ∧
      (members.map Prod.fst).Pairwise (fun a b => a.toUTF8.data.toList < b.toUTF8.data.toList) ∧
      (members.lookup "é").bind Hiccup.ofJson? = some (.node "code" [.leaf "\""]) := by
  have hcount : namedTwice.length ≠ 1 := by decide
  obtain ⟨-, hobject⟩ := documents_as_reader_prints ⟨{}, defaultLayout⟩ namedTwice
  obtain ⟨members, hread, -, hascending, hlast⟩ := hobject hcount
  refine ⟨hcount, members, hread, hascending, ?_⟩
  rw [hlast]
  rfl

end Reader
end HiccupReader
