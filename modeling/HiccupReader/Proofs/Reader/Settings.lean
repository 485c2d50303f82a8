import HiccupReader.Proofs.Layout.History
import HiccupReader.Proofs.Reader.Failures

/-! What the settings of a reader come down to. -/

namespace HiccupReader.Reader

open Layout

variable {settings settings' : Settings} {reader reader' : Reader}

theorem fault?_ofSettings (settings : Settings) : fault? (ofSettings settings) =
    fault? ({ defaultLayout with policy := settings.flatten }.spliceAll settings.splice) :=
  fault?_bind_pure

theorem exists_ofSettings_iff (settings : Settings) : (∃ reader, ofSettings settings = .ok reader) ↔
    ∀ name ∈ settings.splice, Clojure.ruleTable.HasParser name := by
  rw [← fault?_eq_none_iff, fault?_ofSettings, fault?_eq_none_iff, exists_spliceAll_iff]
  rfl

theorem ofSettings_eq_error_iff {fault : SpliceFault} : ofSettings settings = .error fault ↔
    ∃ before name after, settings.splice = before ++ name :: after ∧
      refusal? Clojure.ruleTable name = some fault ∧
      ∀ earlier ∈ before, Clojure.ruleTable.HasParser earlier := by
  rw [← fault?_eq_some_iff, fault?_ofSettings, fault?_eq_some_iff, spliceAll_eq_error_iff]
  rfl

theorem read_eq_of_walk (h : ∀ tree, reader.layout.walk tree = reader'.layout.walk tree)
    (source : Source) : reader.read source = reader'.read source := by
  simp only [read, h]
  rfl

theorem read_eq_of_settings (h : ofSettings settings = .ok reader)
    (h' : ofSettings settings' = .ok reader') (hflatten : settings.flatten = settings'.flatten)
    (hsplice : ∀ name, name ∈ settings.splice ↔ name ∈ settings'.splice) (source : Source) :
    reader.read source = reader'.read source := by
  have hspliced := spliced_of_ofSettings h
  rw [hflatten] at hspliced
  exact read_eq_of_walk (hspliced.walk_eq (spliced_of_ofSettings h') hsplice) source

/-- Steps that set up a layout come down to the policy chosen last and to the rules that were
marked. So do the settings of a reader, which are refused for the first name in them that no parser
rule has. -/
theorem setup_comes_down_to_policy_and_marks :
    (∀ (table : RuleTable) (steps : List Step) (names : List String),
      (∀ name, name ∈ names ↔ name ∈ marked { table } steps) →
      ∃ fresh, Layout.spliceAll { table, policy := lastPolicy .passthrough steps } names =
          .ok fresh ∧
        ∀ tree, (takeAll { table } steps).walk tree = fresh.walk tree) ∧
    (∀ settings, (∃ reader, ofSettings settings = .ok reader) ↔
      ∀ name ∈ settings.splice, Clojure.ruleTable.HasParser name) ∧
    (∀ settings fault, ofSettings settings = .error fault ↔ ∃ before name after,
      settings.splice = before ++ name :: after ∧
      refusal? Clojure.ruleTable name = some fault ∧
      ∀ earlier ∈ before, Clojure.ruleTable.HasParser earlier) ∧
    ∀ settings settings' reader reader', ofSettings settings = .ok reader →
      ofSettings settings' = .ok reader' → settings.flatten = settings'.flatten →
      (∀ name, name ∈ settings.splice ↔ name ∈ settings'.splice) →
      ∀ source, reader.read source = reader'.read source := by
  refine ⟨?_, exists_ofSettings_iff, fun _ _ => ofSettings_eq_error_iff, ?_⟩
  · exact fun table steps names hnames => exists_fresh { table } steps hnames
  · exact fun _ _ _ _ h h' hflatten hsplice => read_eq_of_settings h h' hflatten hsplice

/-- Marks count also where they are set before the policy that looks at them, and those that fail do
not count. -/
def scatteredSteps : List Step :=
  [.choose .flat, .mark "list", .mark "LPAREN", .mark "symbol", .mark "nothing", .mark "list",
    .choose .passthrough]

theorem scatteredSteps_settled :
    (∃ fresh, Layout.spliceAll
        { table := listTable, policy := lastPolicy .passthrough scatteredSteps }
        ["symbol", "list", "symbol"] = .ok fresh ∧
      ∀ tree, (takeAll { table := listTable } scatteredSteps).walk tree = fresh.walk tree) ∧
    ∃ reader reader', ofSettings { splice := ["list", "map", "list"] } = .ok reader ∧
      ofSettings { splice := ["map", "list"], pretty := false } = .ok reader' ∧
      ∀ source, reader.read source = reader'.read source := by
  obtain ⟨hsteps, hsettings, -, hread⟩ := setup_comes_down_to_policy_and_marks
  constructor
  · refine hsteps listTable scatteredSteps ["symbol", "list", "symbol"] fun name => ?_
    have hmarked : marked { table := listTable } scatteredSteps = ["list", "symbol", "list"] := rfl
    rw [hmarked]
    simp only [List.mem_cons, List.not_mem_nil, or_false]
    tauto
  · obtain ⟨reader, hreader⟩ :=
      (hsettings { splice := ["list", "map", "list"] }).2 (by decide)
    obtain ⟨reader', hreader'⟩ :=
      (hsettings { splice := ["map", "list"], pretty := false }).2 (by decide)
    refine ⟨reader, reader', hreader, hreader', hread _ _ _ _ hreader hreader' rfl fun name => ?_⟩
    simp only [List.mem_cons, List.not_mem_nil, or_false]
    tauto

end HiccupReader.Reader
