import HiccupReader.Proofs.Files.Places
import Mathlib.Data.List.Nodup

/-! Whether a search finds a file twice. It tells files by the components of their paths, and the
same file may be reached by paths with other components. This happens just where two roots with a
source in common are spelled apart, so that neither is the other one with names behind it. -/

namespace HiccupReader.Files

namespace Entry

variable {top entry : Entry} {place names : List String}

def WellNamed (top : Entry) : Prop :=
  ∀ names entry, top.Leads names entry → ∀ name ∈ names, IsName name

theorem wellNamed_file (bytes : ByteArray) : (file bytes).WellNamed := by
  rintro _ _ ⟨⟩ name hname
  cases hname

theorem wellNamed_folder_iff {entries : List (String × Entry)} :
    (folder entries).WellNamed ↔ ∀ item ∈ entries, IsName item.1 ∧ item.2.WellNamed := by
  constructor
  · rintro h ⟨name, child⟩ hmem
    refine ⟨h [name] child (.inside hmem (.here child)) name (List.mem_singleton_self name), ?_⟩
    exact fun names inner hleads other hother =>
      h (name :: names) inner (.inside hmem hleads) other (List.mem_cons_of_mem _ hother)
  · rintro h names inner (_ | ⟨hmem, hleads⟩) name hname
    · cases hname
    · obtain ⟨hfirst, hchild⟩ := h _ hmem
      rcases List.mem_cons.1 hname with rfl | hrest
      · exact hfirst
      · exact hchild _ inner hleads name hrest

inductive Trail (top : Entry) : List Entry → List String → Prop
  | top : Trail top [top] []
  | down {entries : List (String × Entry)} {around : List Entry} {place : List String}
    {name : String} {entry : Entry} : Trail top (folder entries :: around) place →
      entries.lookup name = some entry →
        Trail top (entry :: folder entries :: around) (place ++ [name])

theorem Trail.leads {around : List Entry} {inner : Entry} (h : Trail top (entry :: around) place)
    (hleads : entry.Leads names inner) : top.Leads (place ++ names) inner := by
  generalize htrail : entry :: around = trail at h
  induction h generalizing entry around names with
  | top =>
    obtain ⟨rfl, -⟩ := List.cons.inj htrail
    exact hleads
  | down _ hlookup ih =>
    obtain ⟨rfl, -⟩ := List.cons.inj htrail
    obtain ⟨before, after, hentries, -⟩ := List.lookup_eq_some_iff.1 hlookup
    rw [List.append_assoc, List.singleton_append]
    exact ih (.inside (hentries ▸ List.mem_append_cons_self) hleads) rfl

def Stands (top : Entry) (state : Entry × List Entry) (place : List String) : Prop :=
  state = (outside, []) ∨ Trail top (state.1 :: state.2) place

theorem step_cases {state later : Entry × List Entry} {segment : String}
    (h : step state segment = .ok later) :
    ∃ entries around, state = (folder entries, around) ∧
      ((segment = "" ∨ segment = ".") ∧ later = state ∨
        segment = ".." ∧ later = (around.headD outside, around.tail) ∨
        (segment ≠ "" ∧ segment ≠ "." ∧ segment ≠ "..") ∧ ∃ entry,
          entries.lookup segment = some entry ∧ later = (entry, folder entries :: around)) := by
  obtain ⟨entry, around⟩ := state
  cases entry with
  | file bytes => cases h
  | folder entries =>
    refine ⟨entries, around, rfl, ?_⟩
    unfold step at h
    simp only at h
    split at h
    · next hstay =>
      cases h
      exact .inl ⟨hstay, rfl⟩
    · next hmoves =>
      rw [not_or] at hmoves
      split at h
      · next hup =>
        cases around <;> cases h <;> exact .inr (.inl ⟨hup, rfl⟩)
      · next hdown =>
        split at h
        · cases h
        · split at h
          · cases h
          · next entry hlookup =>
            cases h
            exact .inr (.inr ⟨⟨hmoves.1, hmoves.2, hdown⟩, entry, hlookup, rfl⟩)

theorem Stands.step {state later : Entry × List Entry} {segment : String}
    (h : Stands top state place) (hstep : Entry.step state segment = .ok later) :
    Stands top later (Path.placeFrom place (Path.furtherComponents [segment])) := by
  obtain ⟨entries, around, rfl, ⟨hstay, rfl⟩ | ⟨rfl, rfl⟩ |
    ⟨⟨hempty, hhere, hup⟩, entry, hlookup, rfl⟩⟩ := step_cases hstep
  · simpa [Path.furtherComponents, hstay, Path.placeFrom] using h
  · change Stands top _ place.dropLast
    rcases h with houtside | htrail
    · obtain ⟨-, rfl⟩ := Prod.mk.inj houtside
      exact .inl rfl
    · cases htrail with
      | top => exact .inl rfl
      | down houter _ =>
        rw [List.dropLast_concat]
        exact .inr houter
  · have hplace : Path.placeFrom place (Path.furtherComponents [segment]) = place ++ [segment] := by
      simp [Path.furtherComponents, hempty, hhere, hup, Path.placeFrom, Path.advance]
    rw [hplace]
    rcases h with houtside | htrail
    · -- Outside of the tree there is nothing to go down to.
      obtain ⟨hentries, -⟩ := Prod.mk.inj houtside
      obtain rfl := Entry.folder.inj hentries
      cases hlookup
    · exact .inr (.down htrail hlookup)

theorem Stands.run {segments : List String} {state later : Entry × List Entry}
    (h : Stands top state place) (hrun : segments.foldlM Entry.step state = .ok later) :
    Stands top later (Path.placeFrom place (Path.furtherComponents segments)) := by
  induction segments generalizing state place with
  | nil =>
    cases hrun
    exact h
  | cons segment segments ih =>
    rw [List.foldlM_cons, bind_eq_ok_iff] at hrun
    obtain ⟨between, hstep, hrest⟩ := hrun
    rw [Path.furtherComponents_cons, Path.placeFrom_append]
    exact ih (h.step hstep) hrest

theorem Stands.leads {state : Entry × List Entry} {bytes : ByteArray} (h : Stands top state place)
    (hleads : state.1.Leads names (file bytes)) : top.Leads (place ++ names) (file bytes) := by
  rcases h with rfl | htrail
  · cases hleads with
    | inside hmem _ => cases hmem
  · exact htrail.leads hleads

theorem resolve_cases {path : String} (h : top.resolve path = .ok entry) :
    path ≠ "" ∧ ∃ start state, (start = outside ∨ start = top) ∧
      (Path.segments path).foldlM step (start, []) = .ok state ∧ state.1 = entry := by
  rw [resolve] at h
  split at h
  · cases h
  · split at h
    · cases h
    · next hne =>
      split at h
      · cases h
      · dsimp only at h
        generalize hstart : (if path.startsWith "/" = true then outside else top) = start at h
        cases hrun : (Path.segments path).foldlM step (start, []) with
        | error fault =>
          rw [hrun] at h
          cases h
        | ok state =>
          rw [hrun] at h
          refine ⟨hne, start, state, ?_, hrun, Except.ok.inj h⟩
          split at hstart
          · exact .inl hstart.symm
          · exact .inr hstart.symm

end Entry

/-- The world shows a tree of files without links, where relative paths begin in the folder
`working`: whatever file stands at or below a path stands in the tree at or below the place to which
the path leads. -/
structure Shows (world : World) (tree : Entry) (working : List String) : Prop where
  wellNamed : tree.WellNamed
  leads : ∀ path entry names bytes, world path = .ok entry → entry.Leads names (.file bytes) →
    tree.Leads (Path.place working path ++ names) (.file bytes)
  nothing_at_empty : ∀ entry, world "" ≠ .ok entry

theorem Path.place_top {path : String} (h : path ≠ "") :
    place [] path = placeFrom [] (furtherComponents (segments path)) := by
  obtain ⟨first, rest, hsegments⟩ := List.exists_cons_of_ne_nil (segments_ne_nil path)
  have hfirst : placeFrom [] (firstComponents first) = placeFrom [] (furtherComponents [first]) := by
    rw [firstComponents]
    split
    · next hempty => simp [hempty, furtherComponents, placeFrom, advance]
    · split
      · next hhere => simp [hhere, furtherComponents, placeFrom, advance]
      · rfl
  rw [place, components_eq hsegments h, hsegments, furtherComponents_cons, placeFrom_append,
    placeFrom_append, hfirst]

theorem shows_within {top : Entry} (h : top.WellNamed) : Shows (World.within top) top [] := by
  refine ⟨h, fun path entry names bytes hpath hleads => ?_, fun entry hempty => ?_⟩
  · obtain ⟨hne, start, state, hstart, hrun, rfl⟩ := Entry.resolve_cases hpath
    rw [Path.place_top hne]
    refine Entry.Stands.leads (.run ?_ hrun) hleads
    rcases hstart with rfl | rfl
    · exact .inl rfl
    · exact .inr .top
  · exact absurd rfl (Entry.resolve_cases hempty).1

def Extends (outer inner : String) : Prop :=
  ∃ names : List String,
    Path.components inner = Path.components outer ++ names.map Component.name

section search

variable {world : World} {tree : Entry} {working : List String} {roots paths : List String}
  {root path outer inner a b : String}

theorem Shows.wanted (h : Shows world tree working) (hwanted : Wanted world root path) :
    ∃ names : List String,
      Path.components path = Path.components root ++ names.map Component.name ∧
        ∃ bytes, tree.Leads (Path.place working path) (.file bytes) := by
  have hroot : ∀ entry, world root = .ok entry → root ≠ "" := by
    rintro entry hentry rfl
    exact h.nothing_at_empty entry hentry
  cases hwanted with
  | named hfile =>
    have hleads := h.leads root _ [] _ hfile (.here _)
    rw [List.append_nil] at hleads
    exact ⟨[], by simp, _, hleads⟩
  | @below entries names bytes hfolder hnames hextension =>
    have hleads := h.leads root _ names _ hfolder hnames
    have hplain : ∀ name ∈ names, IsName name := fun name hname =>
      h.wellNamed _ _ hleads name (List.mem_append_right _ hname)
    refine ⟨names, Path.components_below (hroot _ hfolder) hplain, bytes, ?_⟩
    rwa [Path.place_below (hroot _ hfolder) hplain]

theorem Extends.components_eq (hextends : Extends outer inner) {names others : List String}
    (ha : Path.components a = Path.components outer ++ names.map Component.name)
    (hb : Path.components b = Path.components inner ++ others.map Component.name)
    (hplace : Path.place working a = Path.place working b) :
    Path.components a = Path.components b := by
  obtain ⟨between, hinner⟩ := hextends
  rw [Path.place, Path.place, ha, hb, hinner, Path.placeFrom_append, Path.placeFrom_append,
    Path.placeFrom_append, Path.placeFrom_names, Path.placeFrom_names, Path.placeFrom_names,
    List.append_assoc] at hplace
  rw [ha, hb, hinner, List.append_cancel_left hplace, List.map_append, List.append_assoc]

theorem extends_of_components_eq {names others : List String}
    (ha : Path.components a = Path.components outer ++ names.map Component.name)
    (hb : Path.components b = Path.components inner ++ others.map Component.name)
    (h : Path.components a = Path.components b) : Extends outer inner ∨ Extends inner outer := by
  rw [ha, hb] at h
  rcases List.append_eq_append_iff.1 h with ⟨between, hinner, hnames⟩ | ⟨between, houter, hothers⟩
  · obtain ⟨front, back, -, rfl, -⟩ := List.map_eq_append_iff.1 hnames
    exact .inl ⟨front, hinner⟩
  · obtain ⟨front, back, -, rfl, -⟩ := List.map_eq_append_iff.1 hothers
    exact .inr ⟨front, houter⟩

def Share (world : World) (working : List String) (outer inner : String) : Prop :=
  ∃ a b, Wanted world outer a ∧ Wanted world inner b ∧
    Path.place working a = Path.place working b

theorem distinct_places_iff (hshows : Shows world tree working)
    (hfound : findSources world roots = .ok paths) :
    paths.Pairwise (fun a b => Path.place working a ≠ Path.place working b) ↔
      ∀ outer ∈ roots, ∀ inner ∈ roots, Share world working outer inner →
        Extends outer inner ∨ Extends inner outer := by
  have hdiscovered := discovered_of_findSources hfound
  constructor
  · rintro hdistinct outer houter inner hinner ⟨a, b, ha, hb, hplace⟩
    obtain ⟨names, hnames, -⟩ := hshows.wanted ha
    obtain ⟨others, hothers, -⟩ := hshows.wanted hb
    obtain ⟨a', hamem, ha'⟩ := hdiscovered.complete outer houter a ha
    obtain ⟨b', hbmem, hb'⟩ := hdiscovered.complete inner hinner b hb
    have hplace' : Path.place working a' = Path.place working b' := by
      rw [Path.place, Path.place, ha', hb']
      exact hplace
    have hsame : a' = b' :=
      List.inj_on_of_nodup_map (List.pairwise_map.2 hdistinct) hamem hbmem hplace'
    exact extends_of_components_eq hnames hothers (by rw [← ha', hsame, hb'])
  · intro hspelled
    refine (pairwise_findSources hfound).imp_of_mem fun {a b} ha hb hlt hplace => hlt.2 ?_
    obtain ⟨outer, houter, hwanted⟩ := hdiscovered.wanted a ha
    obtain ⟨inner, hinner, hwanted'⟩ := hdiscovered.wanted b hb
    obtain ⟨names, hnames, -⟩ := hshows.wanted hwanted
    obtain ⟨others, hothers, -⟩ := hshows.wanted hwanted'
    rcases hspelled outer houter inner hinner ⟨a, b, hwanted, hwanted', hplace⟩ with h | h
    · exact h.components_eq hnames hothers hplace
    · exact (h.components_eq hothers hnames hplace.symm).symm

theorem extends_of_same_lead {lead : List Component}
    (hlead : ∀ root ∈ roots, ∃ names : List String,
      Path.components root = lead ++ names.map Component.name)
    (hshows : Shows world tree working) (houter : outer ∈ roots) (hinner : inner ∈ roots)
    (hshare : Share world working outer inner) : Extends outer inner ∨ Extends inner outer := by
  obtain ⟨a, b, ha, hb, hplace⟩ := hshare
  obtain ⟨names, hnames, -⟩ := hshows.wanted ha
  obtain ⟨others, hothers, -⟩ := hshows.wanted hb
  obtain ⟨first, hfirst⟩ := hlead outer houter
  obtain ⟨second, hsecond⟩ := hlead inner hinner
  refine extends_of_components_eq hnames hothers ?_
  rw [Path.place, Path.place, hnames, hothers, hfirst, hsecond] at hplace
  simp only [Path.placeFrom_append, Path.placeFrom_names, List.append_assoc] at hplace
  rw [hnames, hothers, hfirst, hsecond, List.append_assoc, List.append_assoc, ← List.map_append,
    ← List.map_append, List.append_cancel_left hplace]

end search

/-- Every path that is found leads to a file, and no two have the same components. They lead to
files that all differ just if of two roots with a source in common one is spelled as the other with
names behind it. This is so where all roots begin with the same components and go on with names. -/
theorem files_differ_iff_spelled_alike {world : World} {tree : Entry} {working : List String}
    {roots paths : List String} (hshows : Shows world tree working)
    (hfound : findSources world roots = .ok paths) :
    (∀ path ∈ paths, ∃ bytes, tree.Leads (Path.place working path) (.file bytes)) ∧
    paths.Pairwise (fun a b => Path.components a ≠ Path.components b) ∧
    (paths.Pairwise (fun a b => Path.place working a ≠ Path.place working b) ↔
      ∀ outer ∈ roots, ∀ inner ∈ roots, Share world working outer inner →
        Extends outer inner ∨ Extends inner outer) ∧
    ∀ lead : List Component,
      (∀ root ∈ roots, ∃ names : List String,
        Path.components root = lead ++ names.map Component.name) →
      paths.Pairwise fun a b => Path.place working a ≠ Path.place working b := by
  refine ⟨fun path hpath => ?_, (pairwise_findSources hfound).imp And.right,
    distinct_places_iff hshows hfound, fun lead hlead => ?_⟩
  · obtain ⟨root, -, hwanted⟩ := (discovered_of_findSources hfound).wanted path hpath
    obtain ⟨names, -, hleads⟩ := hshows.wanted hwanted
    exact hleads
  · exact (distinct_places_iff hshows hfound).2 fun outer houter inner hinner =>
      extends_of_same_lead hlead hshows houter hinner

theorem wellNamed_shelfTop : shelfTop.WellNamed := by
  simp only [shelfTop, Entry.wellNamed_folder_iff, List.forall_mem_cons, List.not_mem_nil,
    false_imp_iff, implies_true, and_true, Entry.wellNamed_file]
  refine ⟨⟨?_, ?_, ?_, ?_⟩, ⟨?_, ?_, ?_, ?_⟩, ⟨?_, ?_, ?_, ?_⟩, ⟨?_, ?_, ?_, ?_⟩⟩ <;> decide

theorem shelf_here : shelf "./d" = shelf "d" := by
  rw [shelf_folder]
  exact shelf_eq "./d" [".", "d"] (by decide)

theorem findSources_shelf_spelled_apart :
    findSources shelf ["./d", "d"] = .ok ["./d/n/a.edn", "d/n/a.edn"] := by
  have hat (root : String) (h : shelf root = shelf "d") :
      sourcesAt shelf root = sourcesAmong root root
        [("b.txt", .file "b".toUTF8), ("n", .folder [("a.edn", .file "a".toUTF8)])] := by
    rw [sourcesAt, h, shelf_folder]
  have hfound : sourcesOf shelf ["./d", "d"] = .ok ["./d/n/a.edn", "d/n/a.edn"] := by
    rw [sourcesOf, sourcesOf, sourcesOf, hat _ shelf_here, hat _ rfl]
    decide +kernel
  rw [findSources_eq_of_sorted hfound (by decide)]
  decide

theorem shelf_source_found_twice :
    Shows shelf shelfTop [] ∧
    findSources shelf ["./d", "d"] = .ok ["./d/n/a.edn", "d/n/a.edn"] ∧
    Path.place [] "./d/n/a.edn" = Path.place [] "d/n/a.edn" ∧
    shelf "./d/n/a.edn" = .ok (.file "a".toUTF8) ∧ shelf "d/n/a.edn" = .ok (.file "a".toUTF8) :=
  ⟨shows_within wellNamed_shelfTop, findSources_shelf_spelled_apart, by decide,
    shelf_eq "./d/n/a.edn" [".", "d", "n", "a.edn"] (by decide),
    shelf_eq "d/n/a.edn" ["d", "n", "a.edn"] (by decide)⟩

theorem shelf_files_differ :
    ∃ paths, findSources shelf ["d//n", "d/b.txt", "d"] = .ok paths ∧
      (∀ path ∈ paths, ∃ bytes, shelfTop.Leads (Path.place [] path) (.file bytes)) ∧
      paths.Pairwise fun a b => Path.place [] a ≠ Path.place [] b := by
  obtain ⟨paths, hpaths⟩ := findSources_succeeds_iff.2 searchable_shelf
  obtain ⟨hleads, -, -, hlead⟩ :=
    files_differ_iff_spelled_alike (shows_within wellNamed_shelfTop) hpaths
  refine ⟨paths, hpaths, hleads, hlead [] ?_⟩
  simp only [List.forall_mem_cons, List.not_mem_nil, false_imp_iff, implies_true, and_true,
    List.nil_append]
  exact ⟨⟨["d", "n"], by decide⟩, ⟨["d", "b.txt"], by decide⟩,
    ⟨["d"], by decide⟩⟩

end HiccupReader.Files
