import HiccupReader.Proofs.CommandLine.Sources
import HiccupReader.Proofs.Documents
import HiccupReader.Proofs.Reader.Failures

/-! The hiccup of the sources that are found at paths. What is printed is read back as one object
with a member for each path that was found: paths are found once each, so that no document is set
in the place of another. A run fails if the search fails, if a file cannot be read, or with the
first source in the order of the paths that the reader refuses. -/

namespace HiccupReader.CommandLine

variable {world : Files.World} {arguments roots paths : List String} {reader : Reader}
  {sources : List Source} {documents : List (String × Hiccup)}

def AsksForHiccup (world : Files.World) (arguments roots : List String) (reader : Reader) : Prop :=
  ∃ invocation compact settings, readArguments arguments = .ok invocation ∧
    invocation.command = .hiccup (.paths roots) compact ∧
      settingsFor world invocation = .ok settings ∧
        readerFor { settings with pretty := settings.pretty && !compact } = .ok reader

/-- The text is an object with a member for each of these paths and no others. Under each path
stands the hiccup of the text that is found there. -/
def ShowsEach (world : Files.World) (reader : Reader) (paths : List String) (output : String) :
    Prop :=
  ∃ members, Json.read? output = some (.object members) ∧
    (members.map Prod.fst).Perm paths ∧ paths.Nodup ∧
      ∀ path ∈ paths, ∃ text hiccup value, world.readText path = .ok text ∧
        reader.read ⟨path, text⟩ = .ok hiccup ∧ members.lookup path = some value ∧
          Hiccup.ofJson? value = some hiccup

def FirstRefused (reader : Reader) (sources : List Source) (source : Source)
    (fault : Reader.Fault) : Prop :=
  ∃ before after, sources = before ++ source :: after ∧
    (∀ earlier ∈ before, ∃ hiccup, reader.read earlier = .ok hiccup) ∧
      reader.read source = .error fault

theorem readAll_cons_eq_ok_iff {source : Source} :
    readAll reader (source :: sources) = .ok documents ↔
      ∃ hiccup others, reader.read source = .ok hiccup ∧ readAll reader sources = .ok others ∧
        (source.name, hiccup) :: others = documents := by
  simp only [readAll, bind_eq_ok_iff, mapError_eq_ok_iff, pure, Except.pure, Except.ok.injEq,
    exists_and_left]

theorem name_eq_of_readAll (h : readAll reader sources = .ok documents) :
    documents.map Prod.fst = sources.map Source.name := by
  induction sources generalizing documents with
  | nil =>
    cases h
    rfl
  | cons source sources ih =>
    obtain ⟨hiccup, others, -, hothers, rfl⟩ := readAll_cons_eq_ok_iff.1 h
    rw [List.map_cons, List.map_cons, ih hothers]

theorem mem_of_readAll (h : readAll reader sources = .ok documents) :
    ∀ source ∈ sources, ∃ hiccup, reader.read source = .ok hiccup ∧
      (source.name, hiccup) ∈ documents := by
  induction sources generalizing documents with
  | nil => exact List.forall_mem_nil _
  | cons source sources ih =>
    obtain ⟨hiccup, others, hread, hothers, rfl⟩ := readAll_cons_eq_ok_iff.1 h
    refine List.forall_mem_cons.2 ⟨⟨hiccup, hread, List.mem_cons_self ..⟩, fun other hother => ?_⟩
    obtain ⟨found, hfound, hmem⟩ := ih hothers other hother
    exact ⟨found, hfound, List.mem_cons_of_mem _ hmem⟩

theorem exists_readAll_or_firstRefused (reader : Reader) (sources : List Source) :
    (∃ documents, readAll reader sources = .ok documents) ∨
      ∃ source fault, FirstRefused reader sources source fault ∧
        readAll reader sources = .error (fault.diagnostic source) := by
  induction sources with
  | nil => exact .inl ⟨[], rfl⟩
  | cons source sources ih =>
    cases hread : reader.read source with
    | error fault =>
      refine .inr ⟨source, fault, ⟨[], sources, rfl, List.forall_mem_nil _, hread⟩, ?_⟩
      rw [readAll, hread]
      rfl
    | ok hiccup =>
      rcases ih with ⟨documents, hothers⟩ | ⟨refused, fault, hfirst, hothers⟩
      · exact .inl ⟨_, readAll_cons_eq_ok_iff.2 ⟨hiccup, documents, hread, hothers, rfl⟩⟩
      · obtain ⟨before, after, rfl, hbefore, hfault⟩ := hfirst
        refine .inr ⟨refused, fault, ⟨source :: before, after, rfl, ?_, hfault⟩, ?_⟩
        · exact List.forall_mem_cons.2 ⟨⟨hiccup, hread⟩, hbefore⟩
        · rw [readAll, hread, mapError_ok, ok_bind, hothers, error_bind]

theorem AsksForHiccup.run_eq (h : AsksForHiccup world arguments roots reader)
    (standardInput : ByteArray) :
    ∃ pretty, run world standardInput arguments =
      match sourcesFor world standardInput (.paths roots) >>= readAll reader with
      | .ok documents => .success (Documents.text documents pretty ++ "\n")
      | .error failure => .failed "" failure := by
  obtain ⟨invocation, compact, settings, hread, hcommand, hsettings, hreader⟩ := h
  refine ⟨settings.pretty && !compact, ?_⟩
  rw [run, hread]
  simp only [runInvocation, hsettings, hcommand, ok_bind, runCommand, hreader]
  cases sourcesFor world standardInput (.paths roots) with
  | error failure => rfl
  | ok sources =>
    simp only [ok_bind]
    cases readAll reader sources with
    | error failure => rfl
    | ok documents => rfl

theorem exists_readAll_iff :
    (∃ documents, readAll reader sources = .ok documents) ↔
      ∀ source ∈ sources, ∃ hiccup, reader.read source = .ok hiccup := by
  constructor
  · rintro ⟨documents, hdocuments⟩ source hsource
    obtain ⟨hiccup, hread, -⟩ := mem_of_readAll hdocuments source hsource
    exact ⟨hiccup, hread⟩
  · intro hall
    rcases exists_readAll_or_firstRefused reader sources with hread | ⟨source, fault, hfirst, -⟩
    · exact hread
    · obtain ⟨before, after, rfl, -, hfault⟩ := hfirst
      obtain ⟨hiccup, hread⟩ := hall source (List.mem_append_right _ (List.mem_cons_self ..))
      rw [hfault] at hread
      cases hread

theorem showsEach_text (hfound : Files.findSources world roots = .ok paths)
    (hsources : readSources world paths = .ok sources)
    (hdocuments : readAll reader sources = .ok documents) (hcount : paths.length ≠ 1)
    (pretty : Bool) : ShowsEach world reader paths (Documents.text documents pretty ++ "\n") := by
  have hnames := name_eq_of_readSources hsources
  have hkeys : documents.map Prod.fst = paths := (name_eq_of_readAll hdocuments).trans hnames
  have hnodup := Files.nodup_findSources hfound
  have hlength : documents.length ≠ 1 := by
    rwa [← List.length_map (f := Prod.fst), hkeys]
  refine ⟨Documents.members documents, ?_, ?_, hnodup, ?_⟩
  · rw [Documents.read?_text_line, Documents.toJson_of_length_ne_one hlength]
  · rw [← hkeys]
    exact Documents.keys_members_perm (hkeys ▸ hnodup)
  · intro path hpath
    rw [← hnames, List.mem_map] at hpath
    obtain ⟨source, hsource, rfl⟩ := hpath
    obtain ⟨hiccup, hread, hmem⟩ := mem_of_readAll hdocuments source hsource
    exact ⟨source.text, hiccup, _, readText_of_readSources hsources source hsource, hread,
      Documents.lookup_members_of_mem (hkeys ▸ hnodup) hmem, Hiccup.ofJson?_toJson hiccup⟩

theorem AsksForHiccup.exitCode_eq_zero_iff (h : AsksForHiccup world arguments roots reader)
    (standardInput : ByteArray) :
    (run world standardInput arguments).exitCode = 0 ↔
      ∃ paths sources documents, Files.findSources world roots = .ok paths ∧
        readSources world paths = .ok sources ∧ readAll reader sources = .ok documents ∧
          ∃ pretty, run world standardInput arguments =
            .success (Documents.text documents pretty ++ "\n") := by
  obtain ⟨pretty, hrun⟩ := h.run_eq standardInput
  constructor
  · intro hexit
    cases hread : sourcesFor world standardInput (.paths roots) >>= readAll reader with
    | error failure =>
      rw [hrun, hread] at hexit
      exact absurd hexit Nat.one_ne_zero
    | ok documents =>
      obtain ⟨sources, hsources, hdocuments⟩ := bind_eq_ok_iff.1 hread
      obtain ⟨paths, hfound, hsources⟩ := sourcesFor_paths_eq_ok_iff.1 hsources
      exact ⟨paths, sources, documents, hfound, hsources, hdocuments, pretty,
        hrun.trans (by rw [hread])⟩
  · rintro ⟨_, _, _, -, -, -, _, hsuccess⟩
    rw [hsuccess]
    rfl

/-- No document is lost: a run succeeds just if all sources are found, read and accepted, and it
then shows each of them. If all are found and read, it fails with the first one that is refused. -/
theorem hiccup_shows_each_source (standardInput : ByteArray)
    (h : AsksForHiccup world arguments roots reader) :
    ((run world standardInput arguments).exitCode = 0 ↔
      ∃ paths sources, Files.findSources world roots = .ok paths ∧
        readSources world paths = .ok sources ∧
          ∀ source ∈ sources, ∃ hiccup, reader.read source = .ok hiccup) ∧
    (∀ paths, (run world standardInput arguments).exitCode = 0 →
      Files.findSources world roots = .ok paths → paths.length ≠ 1 →
        ShowsEach world reader paths (run world standardInput arguments).output) ∧
    ∀ paths sources, (run world standardInput arguments).exitCode ≠ 0 →
      Files.findSources world roots = .ok paths → readSources world paths = .ok sources →
        paths.Pairwise Files.PathLt ∧ sources.map Source.name = paths ∧
          ∃ source fault, FirstRefused reader sources source fault ∧
            run world standardInput arguments = .failed "" (fault.diagnostic source) := by
  obtain ⟨pretty, hrun⟩ := h.run_eq standardInput
  refine ⟨?_, ?_, ?_⟩
  · rw [h.exitCode_eq_zero_iff]
    constructor
    · rintro ⟨paths, sources, documents, hfound, hsources, hdocuments, -⟩
      exact ⟨paths, sources, hfound, hsources, exists_readAll_iff.1 ⟨documents, hdocuments⟩⟩
    · rintro ⟨paths, sources, hfound, hsources, hall⟩
      obtain ⟨documents, hdocuments⟩ := exists_readAll_iff.2 hall
      refine ⟨paths, sources, documents, hfound, hsources, hdocuments, pretty, ?_⟩
      rw [hrun, sourcesFor_paths_eq_ok_iff.2 ⟨paths, hfound, hsources⟩, ok_bind, hdocuments]
  · intro paths hexit hfound hcount
    obtain ⟨paths', sources, documents, hfound', hsources, hdocuments, pretty, hsuccess⟩ :=
      (h.exitCode_eq_zero_iff standardInput).1 hexit
    obtain rfl := Except.ok.inj (hfound.symm.trans hfound')
    rw [hsuccess]
    exact showsEach_text hfound hsources hdocuments hcount pretty
  · intro paths sources hexit hfound hsources
    refine ⟨Files.pairwise_findSources hfound, name_eq_of_readSources hsources, ?_⟩
    rw [sourcesFor_paths_eq_ok_iff.2 ⟨paths, hfound, hsources⟩, ok_bind] at hrun
    rcases exists_readAll_or_firstRefused reader sources with
      ⟨documents, hread⟩ | ⟨source, fault, hfirst, hread⟩
    · rw [hrun, hread] at hexit
      exact absurd rfl hexit
    · exact ⟨source, fault, hfirst, hrun.trans (by rw [hread])⟩

theorem exists_read_of_parse {settings : Settings} {source : Source}
    (h : readerFor settings = .ok reader) (hparse : ∃ tree, Clojure.parse source.text = .ok tree) :
    ∃ hiccup, reader.read source = .ok hiccup := by
  obtain ⟨tree, hparse⟩ := hparse
  have htable := Reader.table_of_ofSettings (mapError_eq_ok_iff.1 h)
  obtain ⟨hiccup, hwalk⟩ :=
    Layout.exists_walk_of_kinded htable (Clojure.kinded_of_parse hparse)
  refine ⟨hiccup, ?_⟩
  rw [Reader.read, Reader.parse_eq_ok_iff.2 hparse, ok_bind, hwalk, mapError_ok]

theorem hiccup_shows_two_sources :
    ∃ reader, AsksForHiccup (pairFolder "a" "[b]") ["hiccup", "d"] ["d"] reader ∧
      (run (pairFolder "a" "[b]") .empty ["hiccup", "d"]).exitCode = 0 ∧
        ShowsEach (pairFolder "a" "[b]") reader ["d/a.clj", "d/b.clj"]
          (run (pairFolder "a" "[b]") .empty ["hiccup", "d"]).output := by
  obtain ⟨reader, hreader⟩ : ∃ reader, readerFor {} = .ok reader :=
    Clojure.exists_eq_ok (by decide)
  have hread : readArguments ["hiccup", "d"] =
      .ok ⟨.hiccup (.paths ["d"]) false, none, none, []⟩ := by decide
  have hasks : AsksForHiccup (pairFolder "a" "[b]") ["hiccup", "d"] ["d"] reader :=
    ⟨_, false, {}, hread, rfl, rfl, hreader⟩
  obtain ⟨hexit, hshows, -⟩ := hiccup_shows_each_source .empty hasks
  have hfound := findSources_pairFolder "a" "[b]"
  have hall : ∀ source ∈ [⟨"d/a.clj", "a"⟩, ⟨"d/b.clj", "[b]"⟩],
      ∃ hiccup, reader.read source = .ok hiccup :=
    List.forall_mem_cons.2 ⟨exists_read_of_parse hreader (Clojure.exists_eq_ok (by decide)),
      List.forall_mem_singleton.2
        (exists_read_of_parse hreader (Clojure.exists_eq_ok (by decide)))⟩
  have hzero := hexit.2 ⟨_, _, hfound, readSources_pairFolder "a" "[b]", hall⟩
  exact ⟨reader, hasks, hzero, hshows _ hzero hfound (by decide)⟩

end HiccupReader.CommandLine
