import HiccupReader.Documents
import HiccupReader.Proofs.Json
import Mathlib.Data.List.Basic
import Mathlib.Data.List.Induction
import Mathlib.Data.List.Nodup
import Mathlib.Data.String.Basic

/-! Reading printed documents back: hiccup from its JSON form, and the documents of an object from
its members. The members stand in strictly ascending order of their names, whatever the order of
the documents was, and the last document of a name is the one that is found under it. -/

namespace HiccupReader

namespace Hiccup

mutual

def ofJson? : Json → Option Hiccup
  | .string text => some (.leaf text)
  | .array (.string name :: parts) => (ofJsonAll? parts).map (.node name)
  | _ => none

def ofJsonAll? : List Json → Option (List Hiccup)
  | [] => some []
  | value :: values =>
    match ofJson? value, ofJsonAll? values with
    | some part, some parts => some (part :: parts)
    | _, _ => none

end

mutual

theorem ofJson?_toJson (h : Hiccup) : ofJson? h.toJson = some h := by
  cases h with
  | leaf text => rfl
  | node name parts => rw [toJson, ofJson?, ofJsonAll?_toJsonAll parts, Option.map_some]

theorem ofJsonAll?_toJsonAll (parts : List Hiccup) : ofJsonAll? (toJsonAll parts) = some parts := by
  cases parts with
  | nil => rfl
  | cons part parts =>
    rw [toJsonAll, ofJsonAll?, ofJson?_toJson part, ofJsonAll?_toJsonAll parts]

end

end Hiccup

namespace Documents

variable {key name : String} {value : Json} {ms : List (String × Json)}
  {documents : List (String × Hiccup)}

def Ascending (ms : List (String × Json)) : Prop :=
  ms.Pairwise fun a b => a.1 < b.1

theorem Ascending.nodup (h : Ascending ms) : (ms.map Prod.fst).Nodup :=
  List.pairwise_map.2 (h.imp ne_of_lt)

theorem lookup_cons_eq {α : Type} (name : String) (member : String × α) (ms : List (String × α)) :
    (member :: ms).lookup name = if name = member.1 then some member.2 else ms.lookup name := by
  rw [List.lookup_cons]
  by_cases h : name = member.1
  · simp [h]
  · simp [h, beq_eq_false_iff_ne.2 h]

theorem lookup_isSome_iff {α : Type} {ms : List (String × α)} :
    (ms.lookup name).isSome = true ↔ name ∈ ms.map Prod.fst := by
  induction ms with
  | nil => simp
  | cons member ms ih =>
    rw [lookup_cons_eq, List.map_cons, List.mem_cons, ← ih]
    split <;> simp_all

theorem lookup_eq_of_mem {α : Type} {ms : List (String × α)} {member : String × α}
    (h : (ms.map Prod.fst).Nodup) (hmem : member ∈ ms) : ms.lookup member.1 = some member.2 := by
  induction ms with
  | nil => cases hmem
  | cons first ms ih =>
    obtain ⟨hfirst, hms⟩ := List.nodup_cons.1 h
    rw [lookup_cons_eq]
    rcases List.mem_cons.1 hmem with rfl | hmem
    · exact if_pos rfl
    · rw [if_neg, ih hms hmem]
      rintro heq
      exact hfirst (heq ▸ List.mem_map_of_mem hmem)

theorem lookup_setMember (key : String) (value : Json) (ms : List (String × Json)) (name : String) :
    (setMember key value ms).lookup name = if name = key then some value else ms.lookup name := by
  induction ms with
  | nil => exact lookup_cons_eq ..
  | cons member ms ih =>
    rw [setMember]
    split
    · exact lookup_cons_eq ..
    · split
      · next heq =>
        rw [lookup_cons_eq, lookup_cons_eq]
        split <;> simp_all
      · next hne =>
        rw [lookup_cons_eq, lookup_cons_eq, ih]
        grind

theorem mem_setMember {member : String × Json} (h : member ∈ setMember key value ms) :
    member = (key, value) ∨ member ∈ ms := by
  induction ms with
  | nil => exact .inl (List.mem_singleton.1 h)
  | cons first ms ih => grind [setMember]

theorem ascending_setMember (key : String) (value : Json) (h : Ascending ms) :
    Ascending (setMember key value ms) := by
  induction ms with
  | nil => exact List.pairwise_singleton _ _
  | cons member ms ih =>
    obtain ⟨hmember, hms⟩ := List.pairwise_cons.1 h
    rw [setMember]
    split
    · next hlt =>
      refine List.pairwise_cons.2 ⟨?_, h⟩
      rintro other (_ | ⟨_, hother⟩)
      · exact hlt
      · exact hlt.trans (hmember other hother)
    · next hle =>
      split
      · next heq => exact List.pairwise_cons.2 ⟨fun other hother => heq ▸ hmember other hother, hms⟩
      · next hne =>
        refine List.pairwise_cons.2 ⟨fun other hother => ?_, ih hms⟩
        rcases mem_setMember hother with rfl | hother
        · exact lt_of_le_of_ne (not_lt.1 hle) (Ne.symm hne)
        · exact hmember other hother

theorem members_append (documents : List (String × Hiccup)) (name : String) (h : Hiccup) :
    members (documents ++ [(name, h)]) = setMember name h.toJson (members documents) := by
  rw [members, List.foldl_append]
  rfl

theorem ascending_members (documents : List (String × Hiccup)) : Ascending (members documents) := by
  induction documents using List.reverseRecOn with
  | nil => exact .nil
  | append_singleton documents document ih =>
    rw [members_append]
    exact ascending_setMember _ _ ih

theorem lookup_members (documents : List (String × Hiccup)) (name : String) :
    (members documents).lookup name = (documents.reverse.lookup name).map Hiccup.toJson := by
  induction documents using List.reverseRecOn with
  | nil => rfl
  | append_singleton documents document ih =>
    rw [members_append, lookup_setMember, ih, List.reverse_append, List.reverse_singleton,
      List.singleton_append, lookup_cons_eq]
    split <;> rfl

theorem mem_keys_members_iff (documents : List (String × Hiccup)) (name : String) :
    name ∈ (members documents).map Prod.fst ↔ name ∈ documents.map Prod.fst := by
  rw [← lookup_isSome_iff, lookup_members, Option.isSome_map, lookup_isSome_iff, List.map_reverse,
    List.mem_reverse]

theorem keys_members_perm (h : (documents.map Prod.fst).Nodup) :
    ((members documents).map Prod.fst).Perm (documents.map Prod.fst) := by
  rw [List.perm_ext_iff_of_nodup (ascending_members documents).nodup h]
  exact mem_keys_members_iff documents

theorem lookup_members_of_mem (h : (documents.map Prod.fst).Nodup)
    {document : String × Hiccup} (hmem : document ∈ documents) :
    (members documents).lookup document.1 = some document.2.toJson := by
  have hreverse : (documents.reverse.map Prod.fst).Nodup := by
    rwa [List.map_reverse, List.nodup_reverse]
  rw [lookup_members, lookup_eq_of_mem hreverse (List.mem_reverse.2 hmem), Option.map_some]

theorem read?_text_line (documents : List (String × Hiccup)) (pretty : Bool) :
    Json.read? (text documents pretty ++ "\n") = some (toJson documents) :=
  Json.read?_text_line ..

theorem toJson_of_length_ne_one (h : documents.length ≠ 1) :
    toJson documents = .object (members documents) := by
  rw [toJson]
  rintro name hiccup rfl
  exact h rfl

end Documents
end HiccupReader
