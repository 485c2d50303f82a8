import HiccupReader.Proofs.Files.Discovery

/-! Where paths lead. In a tree of files without links each path leads to one place, which is told
by the names on the way from the top of the tree down to it. A name that is joined to a path makes
its components and its place longer by that name. -/

namespace HiccupReader.Files

structure IsName (name : String) : Prop where
  ne_empty : name ≠ ""
  ne_here : name ≠ "."
  ne_up : name ≠ ".."
  no_slash : '/' ∉ name.toList

namespace Path

def advance (place : List String) : Component → List String
  | .top => []
  | .here => place
  | .up => place.dropLast
  | .name text => place ++ [text]

def placeFrom (place : List String) (components : List Component) : List String :=
  components.foldl advance place

/-- The place to which a path leads, where `working` is the folder in which relative paths begin. -/
def place (working : List String) (path : String) : List String :=
  placeFrom working (components path)

theorem placeFrom_append (start : List String) (as bs : List Component) :
    placeFrom start (as ++ bs) = placeFrom (placeFrom start as) bs :=
  List.foldl_append

@[simp] theorem placeFrom_names (start names : List String) :
    placeFrom start (names.map Component.name) = start ++ names := by
  induction names generalizing start with
  | nil => exact (List.append_nil start).symm
  | cons name names ih =>
    rw [List.map_cons, placeFrom, List.foldl_cons, ← placeFrom, ih, advance, List.append_assoc,
      List.singleton_append]

section segments

variable {path name first : String} {rest : List String}

theorem segments_split {front : List Char} (back : List Char)
    (h : path.toList = front ++ '/' :: back) :
    segments path = segments (String.ofList front) ++ segments (String.ofList back) := by
  have hsplit : (front ++ '/' :: back).splitOn '/' = front.splitOn '/' ++ back.splitOn '/' :=
    List.splitOnP_append_cons front back rfl
  rw [segments, segments, segments, h, hsplit, List.map_append, String.toList_ofList,
    String.toList_ofList]

theorem segments_name (h : '/' ∉ name.toList) : segments name = [name] := by
  have hplain : ∀ c ∈ name.toList, (c == '/') = false := fun c hc =>
    beq_eq_false_iff_ne.2 fun heq => h (heq ▸ hc)
  rw [segments, List.splitOn_eq_splitOnP, List.splitOnP_eq_singleton hplain, List.map_singleton,
    String.ofList_toList]

theorem segments_ne_nil (path : String) : segments path ≠ [] := by
  rw [segments, Ne, List.map_eq_nil_iff]
  exact List.splitOn_ne_nil '/' path.toList

theorem eq_empty_of_segments (h : segments path = [""]) : path = "" := by
  obtain ⟨cs, others, hsplit, hcs, hothers⟩ := List.map_eq_cons_iff.1 h
  obtain rfl := List.map_eq_nil_iff.1 hothers
  obtain rfl : cs = [] := String.ofList_eq_empty_iff.1 hcs
  have hpath : ['/'].intercalate (path.toList.splitOn '/') = path.toList :=
    List.intercalate_splitOn '/'
  rw [hsplit] at hpath
  exact String.toList_eq_nil_iff.1 hpath.symm

theorem furtherComponents_cons (segment : String) (rest : List String) :
    furtherComponents (segment :: rest) =
      furtherComponents [segment] ++ furtherComponents rest := by
  rw [furtherComponents, furtherComponents, furtherComponents, ← List.filterMap_append,
    List.singleton_append]

def firstComponents (segment : String) : List Component :=
  if segment = "" then [.top] else if segment = "." then [.here] else furtherComponents [segment]

theorem components_eq (h : segments path = first :: rest) (hpath : path ≠ "") :
    components path = firstComponents first ++ furtherComponents rest := by
  have hne : first :: rest ≠ [""] := fun heq => hpath (eq_empty_of_segments (h.trans heq))
  rw [components, h, firstComponents]
  split
  · next heq => cases heq
  · next heq => exact absurd heq hne
  · next heq =>
    obtain ⟨rfl, rfl⟩ := List.cons.inj heq
    rfl
  · next heq =>
    obtain ⟨rfl, rfl⟩ := List.cons.inj heq
    rfl
  · next hempty hhere =>
    have hfirst : first ≠ "" := fun heq => hempty rest (heq ▸ rfl)
    have hsecond : first ≠ "." := fun heq => hhere rest (heq ▸ rfl)
    rw [if_neg hfirst, if_neg hsecond, furtherComponents_cons]

theorem furtherComponents_append_name (h : IsName name) :
    furtherComponents (rest ++ [name]) = furtherComponents rest ++ [.name name] := by
  simp [furtherComponents, List.filterMap_append, h.ne_empty, h.ne_here, h.ne_up]

end segments

section join

variable {path name : String} {names : List String}

theorem toList_join_of_slash {front : List Char} (h : path.toList = front ++ ['/'])
    (name : String) :
    (join path name).toList = front ++ '/' :: name.toList := by
  have hends : path.endsWith "/" = true := by
    rw [String.endsWith_eq_endsWith_toSlice, String.Slice.endsWith_string_iff]
    exact ⟨front, by simpa using h.symm⟩
  simp [join, hends, h]

theorem toList_join (h : ∀ front, path.toList ≠ front ++ ['/']) (name : String) :
    (join path name).toList = path.toList ++ '/' :: name.toList := by
  have hends : ¬ path.endsWith "/" = true := by
    rw [String.endsWith_eq_endsWith_toSlice, String.Slice.endsWith_string_iff]
    rintro ⟨front, hfront⟩
    exact h front (by simpa using hfront.symm)
  simp [join, hends]

theorem join_ne_empty (h : IsName name) (path : String) : join path name ≠ "" := by
  have hname : name.toList ≠ [] := mt String.toList_eq_nil_iff.1 h.ne_empty
  intro h
  rw [← String.toList_eq_nil_iff, join] at h
  split at h <;> simp [hname] at h

theorem components_join (hpath : path ≠ "") (hname : IsName name) :
    components (join path name) = components path ++ [.name name] := by
  have hsegments : ∃ first rest others, segments (join path name) = first :: (others ++ [name]) ∧
      segments path = first :: rest ∧ furtherComponents rest = furtherComponents others := by
    by_cases h : ∃ front, path.toList = front ++ ['/']
    · -- The slash at the end of the path is the one in front of the name.
      obtain ⟨front, hfront⟩ := h
      obtain ⟨first, rest, hsplit⟩ := List.exists_cons_of_ne_nil
        (segments_ne_nil (String.ofList front))
      have hjoin := segments_split name.toList (toList_join_of_slash hfront name)
      have hfolder := segments_split [] hfront
      rw [String.ofList_toList, segments_name hname.no_slash, hsplit] at hjoin
      rw [hsplit] at hfolder
      refine ⟨first, rest ++ [""], rest, hjoin, hfolder, ?_⟩
      simp [furtherComponents, List.filterMap_append]
    · obtain ⟨first, rest, hsplit⟩ := List.exists_cons_of_ne_nil (segments_ne_nil path)
      have hjoin := segments_split name.toList (toList_join (not_exists.1 h) name)
      rw [String.ofList_toList, String.ofList_toList, segments_name hname.no_slash, hsplit] at hjoin
      exact ⟨first, rest, rest, hjoin, hsplit, rfl⟩
  obtain ⟨first, rest, others, hjoin, hfolder, hrest⟩ := hsegments
  rw [components_eq hjoin (join_ne_empty hname path), components_eq hfolder hpath, hrest,
    furtherComponents_append_name hname, List.append_assoc]

theorem components_below (hpath : path ≠ "") (hnames : ∀ name ∈ names, IsName name) :
    components (below path names) = components path ++ names.map .name := by
  induction names generalizing path with
  | nil => exact (List.append_nil _).symm
  | cons name names ih =>
    obtain ⟨hname, hnames⟩ := List.forall_mem_cons.1 hnames
    have hbelow := ih (join_ne_empty hname path) hnames
    rw [components_join hpath hname, List.append_assoc] at hbelow
    exact hbelow

theorem place_below (hpath : path ≠ "") (hnames : ∀ name ∈ names, IsName name)
    (working : List String) : place working (below path names) = place working path ++ names := by
  rw [place, components_below hpath hnames, placeFrom_append, placeFrom_names, place]

end join

end Path
end HiccupReader.Files
