import HiccupReader.Proofs.Files.Search
import HiccupReader.Proofs.Text.ByteOrder

/-! What a search finds: the files that are named as roots and the Clojure files below the folders
that are. It fails where a root leads nowhere or a folder cannot be opened. How often and in which
order the roots are named makes no difference to the components of what is found. -/

namespace HiccupReader.Files

def Component.Before (a b : Component) : Prop :=
  a.rank < b.rank ∨ a.rank = b.rank ∧ a.text.toUTF8.data.toList < b.text.toUTF8.data.toList

theorem Component.before_iff {a b : Component} : a.Before b ↔ a.precedes b = true := by
  rw [Before, Text.bytes_lt_iff, precedes_iff]

namespace Path

theorem lex_before_iff {as bs : List Component} :
    List.Lex Component.Before as bs ↔ componentsLe as bs = true ∧ as ≠ bs := by
  constructor
  · intro h
    induction h with
    | nil => exact ⟨rfl, (List.cons_ne_nil _ _).symm⟩
    | @rel a _ b _ hbefore =>
      rw [Component.before_iff] at hbefore
      refine ⟨componentsLe_cons_iff.2 (.inl hbefore), fun heq => ?_⟩
      rw [(List.cons.inj heq).1] at hbefore
      exact Component.precedes_irrefl b hbefore
    | cons _ ih =>
      exact ⟨componentsLe_cons_iff.2 (.inr ⟨rfl, ih.1⟩), fun heq => ih.2 (List.cons.inj heq).2⟩
  · rintro ⟨hle, hne⟩
    induction as generalizing bs with
    | nil =>
      cases bs with
      | nil => exact absurd rfl hne
      | cons b bs => exact .nil
    | cons a as ih =>
      cases bs with
      | nil => cases hle
      | cons b bs =>
        rcases componentsLe_cons_iff.1 hle with hbefore | ⟨rfl, hrest⟩
        · exact .rel (Component.before_iff.2 hbefore)
        · exact .cons (ih hrest fun heq => hne (heq ▸ rfl))

def below (path : String) (names : List String) : String := names.foldl join path

def HasExtension (extensions : List String) (path : String) : Prop :=
  ∃ name extension, lastName? path = some name ∧ extensionOf? name = some extension ∧
    extension ∈ extensions

theorem isClojure_iff {path : String} :
    isClojure path = true ↔ HasExtension clojureExtensions path := by
  simp only [isClojure, HasExtension, Option.any_eq_true, Option.bind_eq_some_iff,
    List.contains_iff_mem]
  constructor
  · rintro ⟨extension, ⟨name, hname, hextension⟩, hmem⟩
    exact ⟨name, extension, hname, hextension, hmem⟩
  · rintro ⟨name, extension, hname, hextension, hmem⟩
    exact ⟨extension, ⟨name, hname, hextension⟩, hmem⟩

end Path

/-- A search succeeds just if it is possible, and finds what is wanted and nothing else. -/
structure Finds (result : Except SearchFault (List String)) (possible : Prop)
    (wanted : String → Prop) : Prop where
  succeeds_iff : (∃ found, result = .ok found) ↔ possible
  mem_iff : ∀ found, result = .ok found → ∀ path, path ∈ found ↔ wanted path

def gather {α : Type} (search : α → Except SearchFault (List String)) :
    List α → Except SearchFault (List String)
  | [] => .ok []
  | item :: items => do
    let first ← search item
    let others ← gather search items
    return first ++ others

section gather

variable {α : Type} {search : α → Except SearchFault (List String)} {items : List α}
  {possible : α → Prop} {wanted : α → String → Prop}

theorem gather_cons_eq_ok_iff {item : α} {found : List String} :
    gather search (item :: items) = .ok found ↔
      ∃ first others, search item = .ok first ∧ gather search items = .ok others ∧
        first ++ others = found := by
  simp only [gather, bind_eq_ok_iff, pure, Except.pure, Except.ok.injEq, exists_and_left]

theorem Finds.gather (h : ∀ item ∈ items, Finds (search item) (possible item) (wanted item)) :
    Finds (gather search items) (∀ item ∈ items, possible item)
      fun path => ∃ item ∈ items, wanted item path := by
  induction items with
  | nil => exact ⟨by simp [Files.gather], by simp [Files.gather]⟩
  | cons item items ih =>
    obtain ⟨hitem, hitems⟩ := List.forall_mem_cons.1 h
    have hothers := ih hitems
    constructor
    · rw [List.forall_mem_cons, ← hitem.succeeds_iff, ← hothers.succeeds_iff]
      simp only [gather_cons_eq_ok_iff]
      constructor
      · rintro ⟨-, first, others, hfirst, hrest, -⟩
        exact ⟨⟨first, hfirst⟩, others, hrest⟩
      · rintro ⟨⟨first, hfirst⟩, others, hrest⟩
        exact ⟨_, first, others, hfirst, hrest, rfl⟩
    · intro found hfound path
      obtain ⟨first, others, hfirst, hrest, rfl⟩ := gather_cons_eq_ok_iff.1 hfound
      rw [List.mem_append, hitem.mem_iff first hfirst, hothers.mem_iff others hrest]
      simp

theorem gather_eq_error {before after : List α} {item : α} {fault : SearchFault}
    (hbefore : ∀ earlier ∈ before, ∃ found, search earlier = .ok found)
    (hitem : search item = .error fault) :
    gather search (before ++ item :: after) = .error fault := by
  induction before with
  | nil => simp [gather, hitem]
  | cons earlier before ih =>
    obtain ⟨⟨found, hfound⟩, hrest⟩ := List.forall_mem_cons.1 hbefore
    rw [List.cons_append, gather, hfound, ok_bind, ih hrest, error_bind]

end gather

theorem sourcesAmong_eq_gather (root path : String) (entries : List (String × Entry)) :
    sourcesAmong root path entries =
      gather (fun item => sourcesBelow root (Path.join path item.1) item.2) entries := by
  induction entries with
  | nil => rw [sourcesAmong, gather]
  | cons item entries ih => rw [sourcesAmong, gather, ih]

theorem sourcesOf_eq_gather (world : World) (roots : List String) :
    sourcesOf world roots = gather (sourcesAt world) roots := by
  induction roots with
  | nil => rfl
  | cons root roots ih => rw [sourcesOf, gather, ih]

namespace Entry

theorem entry_induction {motive : Entry → Prop} (file : ∀ bytes, motive (.file bytes))
    (folder : ∀ entries, (∀ item ∈ entries, motive item.2) → motive (.folder entries)) :
    (entry : Entry) → motive entry
  | .file bytes => file bytes
  | .folder entries => folder entries fun item _ => entry_induction file folder item.2
termination_by entry => sizeOf entry
decreasing_by
  have hitem := List.sizeOf_lt_of_mem ‹item ∈ entries›
  have hentry : sizeOf item.2 < sizeOf item := by
    cases item
    simp only [Prod.mk.sizeOf_spec]
    omega
  simp only [Entry.folder.sizeOf_spec]
  omega

inductive Leads : Entry → List String → Entry → Prop
  | here (entry : Entry) : Leads entry [] entry
  | inside {entries : List (String × Entry)} {name : String} {child entry : Entry}
    {names : List String} : (name, child) ∈ entries → Leads child names entry →
      Leads (.folder entries) (name :: names) entry

variable {entry : Entry} {entries : List (String × Entry)} {path source : String}

def HasSource (entry : Entry) (path source : String) : Prop :=
  ∃ names bytes, entry.Leads names (.file bytes) ∧ source = Path.below path names ∧
    Path.HasExtension Path.clojureExtensions source

def Opens (entry : Entry) (path : String) : Prop :=
  ∀ names inner, entry.Leads names (.folder inner) → Path.isTooLong (Path.below path names) = false

theorem hasSource_file_iff {bytes : ByteArray} :
    (file bytes).HasSource path source ↔
      source = path ∧ Path.HasExtension Path.clojureExtensions source := by
  constructor
  · rintro ⟨_, _, ⟨⟩, hsource, hextension⟩
    exact ⟨hsource, hextension⟩
  · rintro ⟨hsource, hextension⟩
    exact ⟨[], bytes, .here _, hsource, hextension⟩

theorem opens_file (bytes : ByteArray) (path : String) : (file bytes).Opens path := by
  rintro _ _ ⟨⟩

theorem hasSource_folder_iff :
    (folder entries).HasSource path source ↔
      ∃ item ∈ entries, item.2.HasSource (Path.join path item.1) source := by
  constructor
  · rintro ⟨_, bytes, _ | ⟨hmem, hleads⟩, hsource, hextension⟩
    exact ⟨_, hmem, _, bytes, hleads, hsource, hextension⟩
  · rintro ⟨⟨name, child⟩, hmem, names, bytes, hleads, hsource, hextension⟩
    exact ⟨name :: names, bytes, .inside hmem hleads, hsource, hextension⟩

theorem opens_folder_iff :
    (folder entries).Opens path ↔ Path.isTooLong path = false ∧
      ∀ item ∈ entries, item.2.Opens (Path.join path item.1) := by
  constructor
  · intro h
    refine ⟨h [] entries (.here _), ?_⟩
    rintro ⟨name, child⟩ hmem names inner hleads
    exact h (name :: names) inner (.inside hmem hleads)
  · rintro ⟨hpath, hentries⟩ _ inner (_ | ⟨hmem, hleads⟩)
    · exact hpath
    · exact hentries _ hmem _ inner hleads

end Entry

theorem finds_sourcesAmong (root path : String) {entries : List (String × Entry)}
    (h : ∀ item ∈ entries, ∀ path,
      Finds (sourcesBelow root path item.2) (item.2.Opens path) (item.2.HasSource path)) :
    Finds (sourcesAmong root path entries)
      (∀ item ∈ entries, item.2.Opens (Path.join path item.1))
      ((Entry.folder entries).HasSource path) := by
  have hfinds := Finds.gather fun item hitem => h item hitem (Path.join path item.1)
  rw [← sourcesAmong_eq_gather] at hfinds
  exact ⟨hfinds.succeeds_iff, fun found hfound source =>
    (hfinds.mem_iff found hfound source).trans Entry.hasSource_folder_iff.symm⟩

theorem finds_sourcesBelow (root : String) (entry : Entry) (path : String) :
    Finds (sourcesBelow root path entry) (entry.Opens path) (entry.HasSource path) := by
  induction entry using Entry.entry_induction generalizing path with
  | file bytes =>
    rw [sourcesBelow]
    refine ⟨iff_of_true ⟨_, rfl⟩ (Entry.opens_file bytes path), ?_⟩
    rintro _ ⟨⟩ source
    rw [Entry.hasSource_file_iff, ← Path.isClojure_iff]
    split <;> grind
  | folder entries ih =>
    have hamong := finds_sourcesAmong root path ih
    rw [sourcesBelow, Entry.opens_folder_iff]
    split
    · next hlong => exact ⟨by simp [hlong], by simp⟩
    · next hshort =>
      rw [Bool.not_eq_true] at hshort
      exact ⟨by rw [hamong.succeeds_iff, hshort, and_iff_right rfl], hamong.mem_iff⟩

/-- The paths that a root stands for: its own, if it names a file, and else those of the Clojure
files below it. -/
inductive Wanted (world : World) (root : String) : String → Prop
  | named {bytes : ByteArray} : world root = .ok (.file bytes) → Wanted world root root
  | below {entries : List (String × Entry)} {names : List String} {bytes : ByteArray} :
    world root = .ok (.folder entries) → (Entry.folder entries).Leads names (.file bytes) →
      Path.HasExtension Path.clojureExtensions (Path.below root names) →
      Wanted world root (Path.below root names)

structure Searchable (world : World) (root : String) : Prop where
  stands : ∃ entry, world root = .ok entry
  opens : ∀ entries names inner, world root = .ok (.folder entries) → names ≠ [] →
    (Entry.folder entries).Leads names (.folder inner) →
      Path.isTooLong (Path.below root names) = false

/-- The paths are what the roots stand for, in strictly ascending order of their components, where
one path may stand for all those with its components. -/
structure Discovered (world : World) (roots paths : List String) : Prop where
  ascending : paths.Pairwise fun a b =>
    List.Lex Component.Before (Path.components a) (Path.components b)
  wanted : ∀ path ∈ paths, ∃ root ∈ roots, Wanted world root path
  complete : ∀ root ∈ roots, ∀ path, Wanted world root path →
    ∃ found ∈ paths, Path.components found = Path.components path

section search

variable {world : World} {root : String} {roots paths : List String}

theorem wanted_file_iff {bytes : ByteArray} (h : world root = .ok (.file bytes)) {path : String} :
    Wanted world root path ↔ path = root := by
  constructor
  · rintro (_ | ⟨hfolder, -, -⟩)
    · rfl
    · rw [h] at hfolder
      cases hfolder
  · rintro rfl
    exact .named h

theorem wanted_folder_iff {entries : List (String × Entry)} (h : world root = .ok (.folder entries))
    {path : String} : Wanted world root path ↔ (Entry.folder entries).HasSource root path := by
  constructor
  · rintro (hfile | ⟨hfolder, hleads, hextension⟩)
    · rw [h] at hfile
      cases hfile
    · rw [h] at hfolder
      cases hfolder
      exact ⟨_, _, hleads, rfl, hextension⟩
  · rintro ⟨names, bytes, hleads, rfl, hextension⟩
    exact .below h hleads hextension

theorem searchable_file {bytes : ByteArray} (h : world root = .ok (.file bytes)) :
    Searchable world root := by
  refine ⟨⟨_, h⟩, fun entries names inner hfolder => ?_⟩
  rw [h] at hfolder
  cases hfolder

theorem searchable_folder_iff {entries : List (String × Entry)}
    (h : world root = .ok (.folder entries)) :
    Searchable world root ↔ ∀ item ∈ entries, item.2.Opens (Path.join root item.1) := by
  constructor
  · rintro hsearchable ⟨name, child⟩ hmem names inner hleads
    exact hsearchable.opens entries (name :: names) inner h (List.cons_ne_nil _ _)
      (.inside hmem hleads)
  · intro hopens
    refine ⟨⟨_, h⟩, ?_⟩
    rintro entries' names inner hfolder hne (_ | ⟨hmem, hleads⟩)
    · exact absurd rfl hne
    · rw [h] at hfolder
      cases hfolder
      exact hopens _ hmem _ inner hleads

theorem finds_sourcesAt (world : World) (root : String) :
    Finds (sourcesAt world root) (Searchable world root) (Wanted world root) := by
  rw [sourcesAt]
  cases h : world root with
  | error fault =>
    have hnone : ¬ Searchable world root := by
      rintro ⟨⟨entry, hentry⟩, -⟩
      rw [h] at hentry
      cases hentry
    exact ⟨by simp [hnone], by simp⟩
  | ok entry =>
    cases entry with
    | file bytes =>
      refine ⟨iff_of_true ⟨_, rfl⟩ (searchable_file h), ?_⟩
      rintro _ ⟨⟩ path
      rw [List.mem_singleton, wanted_file_iff h]
    | folder entries =>
      have hbelow : ∀ item ∈ entries, ∀ path,
          Finds (sourcesBelow root path item.2) (item.2.Opens path) (item.2.HasSource path) :=
        fun item _ => finds_sourcesBelow root item.2
      have hamong := finds_sourcesAmong root root hbelow
      refine ⟨?_, fun found hfound path => ?_⟩
      · rw [hamong.succeeds_iff, searchable_folder_iff h]
      · rw [hamong.mem_iff found hfound, wanted_folder_iff h]

theorem finds_sourcesOf (world : World) (roots : List String) :
    Finds (sourcesOf world roots) (∀ root ∈ roots, Searchable world root)
      fun path => ∃ root ∈ roots, Wanted world root path := by
  rw [sourcesOf_eq_gather]
  exact Finds.gather fun root _ => finds_sourcesAt world root

theorem findSources_succeeds_iff :
    (∃ paths, findSources world roots = .ok paths) ↔ ∀ root ∈ roots, Searchable world root := by
  rw [← (finds_sourcesOf world roots).succeeds_iff]
  constructor
  · rintro ⟨paths, h⟩
    obtain ⟨found, hfound, -⟩ := findSources_eq_ok_iff.1 h
    exact ⟨found, hfound⟩
  · rintro ⟨found, hfound⟩
    exact ⟨_, findSources_eq_ok_iff.2 ⟨found, hfound, rfl⟩⟩

theorem exists_mem_dropRepeats {path : String} (h : path ∈ paths) :
    ∃ kept ∈ dropRepeats paths, Path.components kept = Path.components path := by
  induction paths with
  | nil => cases h
  | cons first paths ih =>
    rw [dropRepeats]
    rcases List.mem_cons.1 h with rfl | hmem
    · refine ⟨path, ?_, rfl⟩
      split
      · exact List.mem_singleton_self path
      · split <;> exact List.mem_cons_self ..
    · obtain ⟨kept, hkept, hsame⟩ := ih hmem
      cases hrest : dropRepeats paths with
      | nil =>
        rw [hrest] at hkept
        cases hkept
      | cons next rest =>
        rw [hrest] at hkept
        simp only
        split
        · next hnext =>
          rw [samePath_iff] at hnext
          rcases List.mem_cons.1 hkept with rfl | hin
          · exact ⟨first, List.mem_cons_self .., hnext.trans hsame⟩
          · exact ⟨kept, List.mem_cons_of_mem _ hin, hsame⟩
        · exact ⟨kept, List.mem_cons_of_mem _ hkept, hsame⟩

theorem discovered_of_findSources (h : findSources world roots = .ok paths) :
    Discovered world roots paths := by
  have hascending := (pairwise_findSources h).imp Path.lex_before_iff.2
  obtain ⟨found, hfound, rfl⟩ := findSources_eq_ok_iff.1 h
  have hmem := (finds_sourcesOf world roots).mem_iff found hfound
  constructor
  · exact hascending
  · intro path hpath
    exact (hmem path).1 (List.mem_mergeSort.1 (mem_of_mem_dropRepeats hpath))
  · intro root hroot path hwanted
    exact exists_mem_dropRepeats (List.mem_mergeSort.2 ((hmem path).2 ⟨root, hroot, hwanted⟩))

theorem Discovered.mem_components_iff (h : Discovered world roots paths)
    {components : List Component} :
    components ∈ paths.map Path.components ↔
      ∃ root ∈ roots, ∃ path, Wanted world root path ∧ Path.components path = components := by
  rw [List.mem_map]
  constructor
  · rintro ⟨path, hpath, rfl⟩
    obtain ⟨root, hroot, hwanted⟩ := h.wanted path hpath
    exact ⟨root, hroot, path, hwanted, rfl⟩
  · rintro ⟨root, hroot, path, hwanted, rfl⟩
    exact h.complete root hroot path hwanted

theorem Discovered.components_eq {roots' paths' : List String} (h : Discovered world roots paths)
    (h' : Discovered world roots' paths') (hroots : ∀ root, root ∈ roots' ↔ root ∈ roots) :
    paths'.map Path.components = paths.map Path.components := by
  have hascending {roots paths : List String} (h : Discovered world roots paths) :
      (paths.map Path.components).Pairwise fun as bs =>
        Path.componentsLe as bs = true ∧ as ≠ bs :=
    List.pairwise_map.2 (h.ascending.imp Path.lex_before_iff.1)
  have hperm : (paths'.map Path.components).Perm (paths.map Path.components) := by
    refine (List.perm_ext_iff_of_nodup ((hascending h').imp And.right)
      ((hascending h).imp And.right)).2 fun components => ?_
    rw [h.mem_components_iff, h'.mem_components_iff]
    simp only [hroots]
  exact hperm.eq_of_pairwise (fun _ _ _ _ => Path.componentsLe_antisymm)
    ((hascending h').imp And.left) ((hascending h).imp And.left)

theorem findSources_eq_missing {before after : List String} {fault : Fault}
    (hbefore : ∀ earlier ∈ before, Searchable world earlier) (hroot : world root = .error fault) :
    findSources world (before ++ root :: after) = .error (.missing root) := by
  have hsearch : sourcesAt world root = .error (.missing root) := by
    rw [sourcesAt, hroot]
  rw [findSources, sourcesOf_eq_gather, gather_eq_error ?_ hsearch]
  · rfl
  · intro earlier hearlier
    exact (finds_sourcesAt world earlier).succeeds_iff.2 (hbefore earlier hearlier)

end search

/-- A search succeeds just if all of its roots stand for something and can be searched, and then it
discovers what they stand for. The same roots in another order, or named more often, give the same
up to spelling. The first root at which nothing stands is told. -/
theorem discovers_wanted_in_order (world : World) (roots : List String) :
    ((∃ paths, findSources world roots = .ok paths) ↔ ∀ root ∈ roots, Searchable world root) ∧
    (∀ paths, findSources world roots = .ok paths → Discovered world roots paths ∧
      ∀ roots', (∀ root, root ∈ roots' ↔ root ∈ roots) → ∃ paths',
        findSources world roots' = .ok paths' ∧
          paths'.map Path.components = paths.map Path.components) ∧
    ∀ before root after fault, roots = before ++ root :: after →
      (∀ earlier ∈ before, Searchable world earlier) → world root = .error fault →
        ∃ failure, findSources world roots = .error failure ∧ failure.diagnostic.kind = .io ∧
          failure.diagnostic.message = "'" ++ root ++ "' does not exist" := by
  refine ⟨findSources_succeeds_iff, fun paths hpaths => ?_, ?_⟩
  · have hdiscovered := discovered_of_findSources hpaths
    refine ⟨hdiscovered, fun roots' hroots => ?_⟩
    obtain ⟨paths', hpaths'⟩ : ∃ paths', findSources world roots' = .ok paths' :=
      findSources_succeeds_iff.2 fun root hroot =>
        findSources_succeeds_iff.1 ⟨paths, hpaths⟩ root ((hroots root).1 hroot)
    exact ⟨paths', hpaths', hdiscovered.components_eq (discovered_of_findSources hpaths') hroots⟩
  · rintro before root after fault rfl hbefore hroot
    exact ⟨.missing root, findSources_eq_missing hbefore hroot, rfl, rfl⟩

def shelfTop : Entry :=
  .folder [("d", .folder
    [("b.txt", .file "b".toUTF8), ("n", .folder [("a.edn", .file "a".toUTF8)])])]

def shelf : World := .within shelfTop

theorem shelf_eq (path : String) (names : List String)
    (h : ¬ "/".toList <+: path.toList ∧
      ('\x00' ∉ path.toList ∧ path ≠ "" ∧ Path.isTooLong path = false) ∧
      Path.segments path = names) :
    shelf path = (names.foldlM Entry.step (shelfTop, [])).map Prod.fst := by
  rw [shelf, World.within, Entry.resolve_eq h.1 h.2.1, h.2.2]

theorem shelf_folder :
    shelf "d" = .ok (.folder
      [("b.txt", .file "b".toUTF8), ("n", .folder [("a.edn", .file "a".toUTF8)])]) :=
  shelf_eq "d" ["d"] (by decide)

theorem shelf_note : shelf "d/b.txt" = .ok (.file "b".toUTF8) :=
  shelf_eq "d/b.txt" ["d", "b.txt"] (by decide)

theorem shelf_inner : shelf "d//n" = .ok (.folder [("a.edn", .file "a".toUTF8)]) :=
  shelf_eq "d//n" ["d", "", "n"] (by decide)

theorem shelf_missing : shelf "e" = .error .notFound :=
  shelf_eq "e" ["e"] (by decide)

theorem searchable_shelf : ∀ root ∈ ["d//n", "d/b.txt", "d"], Searchable shelf root := by
  rw [List.forall_mem_cons, List.forall_mem_cons, List.forall_mem_singleton]
  refine ⟨(searchable_folder_iff shelf_inner).2 ?_, searchable_file shelf_note,
    (searchable_folder_iff shelf_folder).2 ?_⟩
  · rw [List.forall_mem_singleton]
    exact Entry.opens_file _ _
  · rw [List.forall_mem_cons, List.forall_mem_singleton, Entry.opens_folder_iff,
      List.forall_mem_singleton]
    exact ⟨Entry.opens_file _ _, by decide +kernel, Entry.opens_file _ _⟩

theorem shelf_discovers_in_order :
    (∃ paths, findSources shelf ["d//n", "d/b.txt", "d"] = .ok paths ∧
      Discovered shelf ["d//n", "d/b.txt", "d"] paths ∧
      ∃ paths', findSources shelf ["d", "d//n", "d", "d/b.txt"] = .ok paths' ∧
        paths'.map Path.components = paths.map Path.components) ∧
    ∃ failure, findSources shelf ["d", "e"] = .error failure ∧ failure.diagnostic.kind = .io ∧
      failure.diagnostic.message = "'e' does not exist" := by
  constructor
  · obtain ⟨hsucceeds, hfinds, -⟩ := discovers_wanted_in_order shelf ["d//n", "d/b.txt", "d"]
    obtain ⟨paths, hpaths⟩ := hsucceeds.2 searchable_shelf
    obtain ⟨hdiscovered, hroots⟩ := hfinds paths hpaths
    refine ⟨paths, hpaths, hdiscovered, hroots _ fun root => ?_⟩
    simp only [List.mem_cons, List.not_mem_nil, or_false]
    tauto
  · obtain ⟨-, -, hmissing⟩ := discovers_wanted_in_order shelf ["d", "e"]
    refine hmissing ["d"] "e" [] .notFound rfl ?_ shelf_missing
    exact List.forall_mem_singleton.2 (searchable_shelf "d" (by decide))

end HiccupReader.Files
