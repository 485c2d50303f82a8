import HiccupReader.Proofs.Clojure.Failures
import HiccupReader.Proofs.Clojure.Soundness
import HiccupReader.Proofs.Layout.Splicing
import HiccupReader.Proofs.Layout.Walk
import HiccupReader.Reader

/-! What a reader can fail with. A tree that was parsed always has a layout, so that whatever is
wrong with a source is a parse error. -/

namespace HiccupReader

namespace Reader

variable {settings : Settings} {reader : Reader}

theorem spliced_of_ofSettings (h : ofSettings settings = .ok reader) :
    Layout.Spliced { defaultLayout with policy := settings.flatten } settings.splice
      reader.layout := by
  obtain ⟨layout, hlayout, hreader⟩ := bind_eq_ok_iff.1 h
  obtain rfl := Except.ok.inj hreader
  exact Layout.spliced_of_spliceAll hlayout

theorem table_of_ofSettings (h : ofSettings settings = .ok reader) :
    reader.layout.table = Clojure.ruleTable := (spliced_of_ofSettings h).table

end Reader

namespace Layout

variable {layout : Layout}

theorem faults_of_kinded (htable : layout.table = Clojure.ruleTable) {tree : Tree}
    (h : Clojure.Kinded tree) : layout.faults tree = [] := by
  induction h with
  | @leaf token hkind =>
    obtain ⟨entry, hentry, hkind⟩ := Option.map_eq_some_iff.1 hkind
    simp [faults, leaf, htable, hentry, hkind, fault?]
  | @node found children hkind _ ih =>
    obtain ⟨entry, hentry, hkind⟩ := Option.map_eq_some_iff.1 hkind
    have hroot : fault? (layout.ruleEntry found children.length) = none := by
      simp [ruleEntry, htable, hentry, hkind, fault?]
    rw [faults, hroot, faultsAll_eq_flatMap, List.flatMap_eq_nil_iff.2 ih]
    rfl

theorem exists_walk_of_kinded (htable : layout.table = Clojure.ruleTable) {tree : Tree}
    (h : Clojure.Kinded tree) : ∃ hiccup, layout.walk tree = .ok hiccup := by
  rw [← fault?_eq_none_iff, walk_eq_hiccup, fault?_hiccup, faults_of_kinded htable h]
  rfl

end Layout

theorem Clojure.kinded_of_parse {text : String} {tree : Tree} (h : parse text = .ok tree) :
    Kinded tree := by
  obtain ⟨tokens, -, -, hderive⟩ := parse_eq_ok_iff.1 h
  obtain ⟨c, hread⟩ := derive_eq_ok_iff.1 hderive
  obtain ⟨d, -, -, hshape⟩ := derives_of_reading hread
  exact kinded_of_shape hshape

namespace Reader

variable {settings : Settings} {reader : Reader} {source : Source}

theorem parse_eq_ok_iff {tree : Tree} :
    reader.parse source = .ok tree ↔ Clojure.parse source.text = .ok tree :=
  mapError_eq_ok_iff

end Reader
end HiccupReader
