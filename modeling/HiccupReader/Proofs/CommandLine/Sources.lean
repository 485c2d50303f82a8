import HiccupReader.CommandLine.Run
import HiccupReader.Proofs.Files.Search

/-! The sources of a run: what is found at its paths, each source with the name and the text of its
file, in the order of the paths. -/

namespace HiccupReader.CommandLine

variable {world : Files.World} {paths roots : List String} {sources : List Source}

theorem readSource_eq_ok_iff {path : String} {source : Source} :
    Files.readSource world path = .ok source ↔
      source.name = path ∧ world.readText path = .ok source.text := by
  obtain ⟨name, text⟩ := source
  rw [Files.readSource]
  cases world.readText path with
  | error fault => simp
  | ok found => simp [eq_comm]

theorem readSources_cons_eq_ok_iff {path : String} :
    readSources world (path :: paths) = .ok sources ↔
      ∃ source others, Files.readSource world path = .ok source ∧
        readSources world paths = .ok others ∧ source :: others = sources := by
  simp only [readSources, bind_eq_ok_iff, pure, Except.pure, Except.ok.injEq, exists_and_left]

theorem name_eq_of_readSources (h : readSources world paths = .ok sources) :
    sources.map Source.name = paths := by
  induction paths generalizing sources with
  | nil =>
    cases h
    rfl
  | cons path paths ih =>
    obtain ⟨source, others, hsource, hothers, rfl⟩ := readSources_cons_eq_ok_iff.1 h
    rw [List.map_cons, ih hothers, (readSource_eq_ok_iff.1 hsource).1]

theorem readText_of_readSources (h : readSources world paths = .ok sources) :
    ∀ source ∈ sources, world.readText source.name = .ok source.text := by
  induction paths generalizing sources with
  | nil =>
    cases h
    exact List.forall_mem_nil _
  | cons path paths ih =>
    obtain ⟨source, others, hsource, hothers, rfl⟩ := readSources_cons_eq_ok_iff.1 h
    obtain ⟨rfl, htext⟩ := readSource_eq_ok_iff.1 hsource
    exact List.forall_mem_cons.2 ⟨htext, ih hothers⟩

theorem sourcesFor_paths_eq_ok_iff {standardInput : ByteArray} :
    sourcesFor world standardInput (.paths roots) = .ok sources ↔
      ∃ paths, Files.findSources world roots = .ok paths ∧
        readSources world paths = .ok sources := by
  simp only [sourcesFor, bind_eq_ok_iff, mapError_eq_ok_iff]

def pairFolder (first second : String) : Files.World :=
  .within (.folder
    [("d", .folder [("a.clj", .file first.toUTF8), ("b.clj", .file second.toUTF8)])])

theorem pairFolder_folder (first second : String) :
    pairFolder first second "d" =
      .ok (.folder [("a.clj", .file first.toUTF8), ("b.clj", .file second.toUTF8)]) := by
  have hsegments : Files.Path.segments "d" = ["d"] := by decide
  refine (Files.Entry.resolve_eq (by decide) (by decide) _).trans ?_
  rw [hsegments, List.foldlM_cons, Files.Entry.step_eq (by decide) rfl]
  rfl

theorem pairFolder_file {first second name : String} {file : Files.Entry}
    (hname : name = "a.clj" ∨ name = "b.clj")
    (hfile : [("a.clj", .file first.toUTF8), ("b.clj", .file second.toUTF8)].lookup name =
      some file) :
    pairFolder first second ("d/" ++ name) = .ok file := by
  have hplain : ¬ "/".toList <+: ("d/" ++ name).toList ∧
      ('\x00' ∉ ("d/" ++ name).toList ∧ "d/" ++ name ≠ "" ∧
        Files.Path.isTooLong ("d/" ++ name) = false) ∧
      Files.Path.segments ("d/" ++ name) = ["d", name] ∧
      name ≠ "" ∧ name ≠ "." ∧ name ≠ ".." ∧ name.utf8ByteSize ≤ Files.Path.nameLimit := by
    rcases hname with rfl | rfl <;> decide
  obtain ⟨hinside, hshort, hsegments, hstep⟩ := hplain
  refine (Files.Entry.resolve_eq hinside hshort _).trans ?_
  rw [hsegments, List.foldlM_cons, Files.Entry.step_eq (by decide) rfl, ok_bind,
    List.foldlM_cons, Files.Entry.step_eq hstep hfile]
  rfl

theorem findSources_pairFolder (first second : String) :
    Files.findSources (pairFolder first second) ["d"] = .ok ["d/a.clj", "d/b.clj"] := by
  have hjoin : Files.Path.join "d" "a.clj" = "d/a.clj" ∧
      Files.Path.join "d" "b.clj" = "d/b.clj" := by decide +kernel
  have hclojure : Files.Path.isClojure "d/a.clj" = true ∧
      Files.Path.isClojure "d/b.clj" = true := by decide
  have hfound : Files.sourcesOf (pairFolder first second) ["d"] =
      .ok ["d/a.clj", "d/b.clj"] := by
    simp only [Files.sourcesOf, Files.sourcesAt, pairFolder_folder, Files.sourcesAmong,
      Files.sourcesBelow, hjoin, hclojure, if_true, ok_bind]
    rfl
  rw [Files.findSources_eq_of_sorted hfound (by decide)]
  decide

theorem readSources_pairFolder (first second : String) :
    readSources (pairFolder first second) ["d/a.clj", "d/b.clj"] =
      .ok [⟨"d/a.clj", first⟩, ⟨"d/b.clj", second⟩] := by
  have hfirst : pairFolder first second "d/a.clj" = .ok (.file first.toUTF8) :=
    pairFolder_file (.inl rfl) rfl
  have hsecond : pairFolder first second "d/b.clj" = .ok (.file second.toUTF8) :=
    pairFolder_file (.inr rfl) rfl
  simp only [readSources, Files.readSource, Files.World.readText, hfirst, hsecond,
    Files.decode_toUTF8, ok_bind]
  rfl

end HiccupReader.CommandLine
