import HiccupReader.Proofs.Clojure.Respacing
import HiccupReader.Proofs.Layout.Content
import HiccupReader.Proofs.Reader.Failures
import HiccupReader.Proofs.Layout.Inlining

/-! What a reader makes of a text does not depend on the trivia in it, but for tags that hide a
comment. -/

namespace HiccupReader.Reader

open Clojure

variable {settings : Settings} {reader : Reader}

theorem read_eq_ok_iff {source : Source} {h : Hiccup} :
    reader.read source = .ok h ↔ ∃ tree, reader.parse source = .ok tree ∧
      reader.layout.walk tree = .ok h := by
  rw [read, bind_eq_ok_iff]
  simp only [mapError_eq_ok_iff]

theorem leafTexts_of_walk {layout : Layout} {tree : Tree} {h : Hiccup}
    (hwalk : layout.walk tree = .ok h) : h.leafTexts = tree.tokens.map Token.text := by
  rw [Layout.walk_eq_hiccup] at hwalk
  rw [Hiccup.leafTexts_eq_leaves, Tree.tokens_eq_leaves, Layout.leaves_hiccup hwalk]

theorem separator_space : Separator " ".toList :=
  ⟨.blank (by decide) .none, ' ', [], rfl, .inl (by decide)⟩

/-- A text is read alike whatever trivia stands between its terminals, just when none of them hides
a comment. -/
theorem read_joined_iff (reader : Reader) (source : Source) (h : Hiccup)
    (hread : reader.read source = .ok h) :
    ∃ tree, reader.parse source = .ok tree ∧ h.leafTexts = tree.tokens.map Token.text ∧
      ((∀ other : Source, Joined Separator h.leafTexts other.text.toList →
        reader.read other = .ok h) ↔ ∀ text ∈ h.leafTexts, ¬ HidesComment text) ∧
      ((∀ text ∈ h.leafTexts, ¬ HidesComment text) →
        ∀ name, reader.read ⟨name, " ".intercalate h.leafTexts⟩ = .ok h) := by
  obtain ⟨tree, hparse, hwalk⟩ := read_eq_ok_iff.1 hread
  have htexts := leafTexts_of_walk hwalk
  have forward : (∀ text ∈ h.leafTexts, ¬ HidesComment text) → ∀ other : Source,
      Joined Separator h.leafTexts other.text.toList → reader.read other = .ok h := by
    rw [htexts, List.forall_mem_map]
    intro hts other hjoined
    obtain ⟨tree', hparse', hcontent⟩ :=
      exists_parse_of_joined (fun _ => id) (parse_eq_ok_iff.1 hparse) hts hjoined
    exact read_eq_ok_iff.2
      ⟨tree', parse_eq_ok_iff.2 hparse', Layout.walk_congr hcontent.symm hwalk⟩
  refine ⟨tree, hparse, htexts, ⟨fun hall => ?_, forward⟩, fun hts name => ?_⟩
  · -- Each terminal on a line of its own shows which of them hide a comment.
    have hlines : Joined (· = ['\n']) h.leafTexts ("\n".intercalate h.leafTexts).toList :=
      joined_intercalate "\n" (by rfl) _
    have hagain := hall ⟨source.name, "\n".intercalate h.leafTexts⟩
      (joined_intercalate "\n" separator_newline _)
    obtain ⟨tree', hparse', hwalk'⟩ := read_eq_ok_iff.1 hagain
    rw [leafTexts_of_walk hwalk', List.forall_mem_map]
    refine not_hidesComment_of_lines (parse_eq_ok_iff.1 hparse') ?_
    rw [← leafTexts_of_walk hwalk']
    exact hlines
  · exact forward hts _ (joined_intercalate " " separator_space _)

def plainReader : Reader := ⟨{}, defaultLayout⟩

theorem plainReader_read {text : String} {tree : Tree}
    (h : (Clojure.parse text).toOption = some tree) (name : String) :
    ∃ hiccup, plainReader.read ⟨name, text⟩ = .ok hiccup ∧
      hiccup.leafTexts = tree.tokens.map Token.text := by
  have hparse := eq_ok_of_toOption h
  have htable : defaultLayout.table = Clojure.ruleTable := rfl
  obtain ⟨hiccup, hwalk⟩ := Layout.exists_walk_of_kinded htable (kinded_of_parse hparse)
  exact ⟨hiccup, read_eq_ok_iff.2 ⟨tree, parse_eq_ok_iff.2 hparse, hwalk⟩, leafTexts_of_walk hwalk⟩

/-- A comment that stands in a tag is a comment again where the line ends behind the tag. -/
theorem not_read_alike_of_hidden_comment :
    ¬ ∀ h, plainReader.read ⟨"a.clj", "#_#!a b"⟩ = .ok h → ∀ other : Source,
      Joined Separator h.leafTexts other.text.toList → plainReader.read other = .ok h := by
  intro hall
  have htag : (Clojure.parse "#_#!a b").toOption.map (fun tree => tree.tokens.map Token.text) =
      some ["#_#!a", "b"] := by
    decide +kernel
  have hdiscard : (Clojure.parse "#_#!a\nb").toOption.map
      (fun tree => tree.tokens.map Token.text) = some ["#_", "b"] := by
    decide +kernel
  obtain ⟨tree, htree, htexts⟩ := Option.map_eq_some_iff.1 htag
  obtain ⟨tree', htree', htexts'⟩ := Option.map_eq_some_iff.1 hdiscard
  obtain ⟨h, hread, hleaves⟩ := plainReader_read htree "a.clj"
  obtain ⟨h', hread', hleaves'⟩ := plainReader_read htree' "a.clj"
  have hjoined : Joined Separator h.leafTexts "#_#!a\nb".toList := by
    rw [hleaves, htexts]
    exact joined_intercalate "\n" separator_newline ["#_#!a", "b"]
  have hsame := Except.ok.inj (hread'.symm.trans (hall h hread ⟨"a.clj", "#_#!a\nb"⟩ hjoined))
  rw [hsame, hleaves, htexts, htexts'] at hleaves'
  revert hleaves'
  decide

theorem quoted_symbol_read_alike :
    ∃ h, plainReader.read ⟨"a.clj", "'a;b"⟩ = .ok h ∧
      plainReader.read ⟨"b.clj", "' a"⟩ = .ok h := by
  have hterminals : (Clojure.parse "'a;b").toOption.map (fun tree => tree.tokens.map Token.text) =
      some ["'", "a"] := by
    decide +kernel
  obtain ⟨tree, htree, htexts⟩ := Option.map_eq_some_iff.1 hterminals
  obtain ⟨h, hread, hleaves⟩ := plainReader_read htree "a.clj"
  rw [htexts] at hleaves
  obtain ⟨-, -, -, -, hspaces⟩ := read_joined_iff plainReader ⟨"a.clj", "'a;b"⟩ h hread
  have hplain : ∀ text ∈ h.leafTexts, ¬ HidesComment text := by
    rw [hleaves]
    decide
  have hagain := hspaces hplain "b.clj"
  rw [hleaves] at hagain
  exact ⟨h, hread, hagain⟩

end HiccupReader.Reader
