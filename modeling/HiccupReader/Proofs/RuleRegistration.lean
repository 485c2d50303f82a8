import HiccupReader.Proofs.RuleTable
import Mathlib.Data.List.Basic

/-! Building a rule table from a list of entries. It succeeds just if no name stands twice, and then
names and indices stand for each other; else the first entry with a name of an earlier one is told.
The same table comes from taking up the names one after the other in a hash map. -/

namespace HiccupReader.RuleTable

section firstRepeated

variable {seen names : List String} {name : String}

theorem firstRepeated?_eq_some_iff :
    firstRepeated? seen names = some name ↔
      ∃ before after, names = before ++ name :: after ∧
        (before.Nodup ∧ ∀ earlier ∈ before, earlier ∉ seen) ∧ (name ∈ before ∨ name ∈ seen) := by
  induction names generalizing seen with
  | nil => simp [firstRepeated?]
  | cons first names ih =>
    rw [firstRepeated?]
    split
    · next hfirst =>
      rw [Option.some_inj]
      constructor
      · rintro rfl
        exact ⟨[], names, rfl, ⟨List.nodup_nil, by simp⟩, .inr hfirst⟩
      · rintro ⟨before, after, hnames, ⟨-, hunseen⟩, -⟩
        cases before with
        | nil => exact (List.cons.inj hnames).1
        | cons earlier before =>
          obtain ⟨rfl, -⟩ := List.cons.inj hnames
          exact absurd hfirst (hunseen first (List.mem_cons_self ..))
    · next hfirst =>
      rw [ih]
      constructor
      · rintro ⟨before, after, rfl, ⟨hnodup, hunseen⟩, hrepeated⟩
        refine ⟨first :: before, after, rfl, ⟨?_, ?_⟩, ?_⟩
        · exact List.nodup_cons.2
            ⟨fun hmem => hunseen first hmem (List.mem_cons_self ..), hnodup⟩
        · rw [List.forall_mem_cons]
          exact ⟨hfirst, fun earlier hmem => mt (List.mem_cons_of_mem _) (hunseen earlier hmem)⟩
        · rw [List.mem_cons] at hrepeated ⊢
          tauto
      · rintro ⟨before, after, hnames, ⟨hnodup, hunseen⟩, hrepeated⟩
        cases before with
        | nil =>
          obtain ⟨rfl, -⟩ := List.cons.inj hnames
          rcases hrepeated with hmem | hmem
          · cases hmem
          · exact absurd hmem hfirst
        | cons earlier before =>
          obtain ⟨rfl, rfl⟩ := List.cons.inj hnames
          obtain ⟨hnotin, hnodup⟩ := List.nodup_cons.1 hnodup
          refine ⟨before, after, rfl, ⟨hnodup, fun other hother => ?_⟩, ?_⟩
          · rw [List.mem_cons, not_or]
            exact ⟨fun heq => hnotin (heq ▸ hother),
              hunseen other (List.mem_cons_of_mem _ hother)⟩
          · rw [List.mem_cons] at hrepeated ⊢
            tauto

end firstRepeated

section register

variable {before : List RuleEntry} {entry : RuleEntry} {index : Std.HashMap String Nat}

def Indexes (index : Std.HashMap String Nat) (entries : List RuleEntry) : Prop :=
  ∀ (name : String) (i : Nat),
    index[name]? = some i ↔ (entries.map RuleEntry.name)[i]? = some name

def register (position : Nat) (index : Std.HashMap String Nat) :
    List RuleEntry → Except Fault (Std.HashMap String Nat)
  | [] => .ok index
  | entry :: entries =>
    match index[entry.name]? with
    | some _ => .error (.repeatedName entry.name)
    | none => register (position + 1) (index.insert entry.name position) entries

theorem indexes_nil : Indexes ∅ [] := by
  intro name i
  simp

theorem Indexes.mem_iff (h : Indexes index before) {name : String} :
    name ∈ before.map RuleEntry.name ↔ ∃ i, index[name]? = some i := by
  rw [List.mem_iff_getElem?]
  exact exists_congr fun i => (h name i).symm

theorem Indexes.insert (h : Indexes index before) (hnew : index[entry.name]? = none) :
    Indexes (index.insert entry.name before.length) (before ++ [entry]) := by
  have hnotin : entry.name ∉ before.map RuleEntry.name := by
    rw [h.mem_iff, hnew]
    simp
  intro name i
  rw [Std.HashMap.getElem?_insert, List.map_append, List.getElem?_append, List.length_map]
  split
  · next hname =>
    obtain rfl : entry.name = name := by simpa using hname
    split
    · next hlt =>
      refine iff_of_false (fun heq => ?_) fun heq => hnotin (List.mem_of_getElem? heq)
      rw [Option.some_inj] at heq
      omega
    · next hge =>
      rw [Option.some_inj, List.map_singleton, List.getElem?_singleton]
      split <;> simp <;> omega
  · next hname =>
    have hne : entry.name ≠ name := by simpa using hname
    rw [h name i]
    split
    · rfl
    · next hge =>
      have hnone : (before.map RuleEntry.name)[i]? = none :=
        List.getElem?_eq_none (by rw [List.length_map]; omega)
      rw [hnone, List.map_singleton, List.getElem?_singleton]
      split <;> simp [hne]

theorem register_spec (entries : List RuleEntry) (seen : List String) (h : Indexes index before)
    (hseen : ∀ name, name ∈ seen ↔ name ∈ before.map RuleEntry.name) :
    match firstRepeated? seen (entries.map RuleEntry.name) with
    | some name => register before.length index entries = .error (.repeatedName name)
    | none => ∃ all, register before.length index entries = .ok all ∧
        Indexes all (before ++ entries) := by
  induction entries generalizing before index seen with
  | nil => exact ⟨index, rfl, by rwa [List.append_nil]⟩
  | cons entry entries ih =>
    have hmem := (hseen entry.name).trans h.mem_iff
    rw [List.map_cons, firstRepeated?, register]
    cases hfound : index[entry.name]? with
    | some i =>
      rw [if_pos (hmem.2 ⟨i, hfound⟩)]
    | none =>
      rw [if_neg (by rw [hmem, hfound]; simp)]
      have hlater := ih (entry.name :: seen) (h.insert hfound) fun name => by
        rw [List.mem_cons, hseen, List.map_append, List.mem_append, List.map_singleton,
          List.mem_singleton, or_comm]
      simpa using hlater

end register

/-- The table has the entries of the list at their positions and no others, and a name and an index
stand for each other. The map in which the names are registered knows the same. -/
structure Tabulates (table : RuleTable) (entries : List RuleEntry) : Prop where
  name?_eq : ∀ i, table.name? i = entries[i]?.map RuleEntry.name
  indexOf?_iff : ∀ name i, table.indexOf? name = some i ↔ table.name? i = some name
  resolves : ∀ i (h : i < entries.length), table.resolve i = .ok entries[i]
  resolves_no_other : ∀ i, entries.length ≤ i →
    table.resolve i = .error (.missingIndex i entries.length)
  registered : ∃ index, register 0 ∅ entries = .ok index ∧
    ∀ name, index[name]? = table.indexOf? name

def FirstRepeated (entries : List RuleEntry) (entry : RuleEntry) : Prop :=
  ∃ before after, entries = before ++ entry :: after ∧ (before.map RuleEntry.name).Nodup ∧
    entry.name ∈ before.map RuleEntry.name

section ofEntries

variable {entries : List RuleEntry} {table : RuleTable} {fault : Fault}

theorem ofEntries_eq_ok_iff :
    ofEntries entries = .ok table ↔ table.entries = entries := by
  rw [ofEntries]
  split
  · next name hname =>
    refine iff_of_false (by simp) ?_
    rintro rfl
    have hnone := (firstRepeated?_eq_none_iff [] _).2 ⟨table.names_nodup, by simp⟩
    rw [hnone] at hname
    cases hname
  · obtain ⟨others, hothers⟩ := table
    simp [eq_comm]

theorem ofEntries_eq_error_iff :
    ofEntries entries = .error fault ↔
      ∃ entry, FirstRepeated entries entry ∧ fault = .repeatedName entry.name := by
  have herror : ofEntries entries = .error fault ↔
      ∃ name, firstRepeated? [] (entries.map RuleEntry.name) = some name ∧
        fault = .repeatedName name := by
    rw [ofEntries]
    split
    · next name hname => simp [hname, eq_comm]
    · next hname => simp [hname]
  rw [herror]
  simp only [firstRepeated?_eq_some_iff]
  constructor
  · rintro ⟨name, ⟨before, after, hnames, ⟨hnodup, -⟩, hrepeated⟩, rfl⟩
    obtain ⟨front, rest, rfl, rfl, hrest⟩ := List.map_eq_append_iff.1 hnames
    obtain ⟨entry, others, rfl, rfl, -⟩ := List.map_eq_cons_iff.1 hrest
    refine ⟨entry, ⟨front, others, rfl, hnodup, ?_⟩, rfl⟩
    simpa using hrepeated
  · rintro ⟨entry, ⟨before, after, rfl, hnodup, hrepeated⟩, rfl⟩
    exact ⟨entry.name, ⟨before.map RuleEntry.name, after.map RuleEntry.name, by simp,
      ⟨hnodup, by simp⟩, .inl hrepeated⟩, rfl⟩

theorem ofEntries_succeeds_iff :
    (∃ table, ofEntries entries = .ok table) ↔ (entries.map RuleEntry.name).Nodup := by
  simp only [ofEntries_eq_ok_iff]
  constructor
  · rintro ⟨table, rfl⟩
    exact table.names_nodup
  · exact fun h => ⟨⟨entries, h⟩, rfl⟩

theorem register_eq_error (h : ofEntries entries = .error fault) :
    register 0 ∅ entries = .error fault := by
  have hspec := register_spec entries [] indexes_nil (by simp)
  rw [ofEntries] at h
  split at h
  · next name hname =>
    rw [hname] at hspec
    exact hspec.trans (congrArg _ (Except.error.inj h))
  · cases h

theorem exists_register_eq (table : RuleTable) :
    ∃ index, register 0 ∅ table.entries = .ok index ∧
      ∀ name, index[name]? = table.indexOf? name := by
  have hspec := register_spec table.entries [] indexes_nil (by simp)
  rw [(firstRepeated?_eq_none_iff [] _).2 ⟨table.names_nodup, by simp⟩] at hspec
  obtain ⟨index, hindex, hall⟩ := hspec
  refine ⟨index, hindex, fun name => Option.ext fun i => ?_⟩
  rw [hall name i, indexOf?_eq_some_iff, name?, get?, List.nil_append, List.getElem?_map]

theorem tabulates_of_ofEntries (h : ofEntries entries = .ok table) : Tabulates table entries := by
  obtain rfl := ofEntries_eq_ok_iff.1 h
  refine ⟨fun i => rfl, fun name i => indexOf?_eq_some_iff, fun i hlt => ?_, fun i hge => ?_,
    exists_register_eq table⟩
  · rw [resolve, get?, List.getElem?_eq_getElem hlt]
  · rw [resolve, get?, List.getElem?_eq_none hge, size]

end ofEntries

/-- A table is made of entries just if all names differ, and then names and indices stand for each
other. Else the fault tells the first entry whose name occurs earlier, and the registering of the
names stops there too. -/
theorem entries_tabulated_or_repeated (entries : List RuleEntry) :
    ((∃ table, ofEntries entries = .ok table) ↔ (entries.map RuleEntry.name).Nodup) ∧
    (∀ table, ofEntries entries = .ok table → Tabulates table entries) ∧
    ∀ fault, ofEntries entries = .error fault →
      register 0 ∅ entries = .error fault ∧ ∃ entry, FirstRepeated entries entry ∧
        fault.diagnostic =
          { kind := .config
            message :=
              "rule '" ++ entry.name ++ "' is registered twice in the rule-name table" } := by
  refine ⟨ofEntries_succeeds_iff, fun table => tabulates_of_ofEntries, fun fault h => ?_⟩
  obtain ⟨entry, hfirst, rfl⟩ := ofEntries_eq_error_iff.1 h
  exact ⟨register_eq_error h, entry, hfirst, rfl⟩

def codeRules : List RuleEntry := [⟨"code", .parser, false⟩, ⟨"forms", .parser, true⟩]

theorem codeRules_tabulated :
    (∃ table, ofEntries codeRules = .ok table ∧ Tabulates table codeRules) ∧
    ∃ fault, ofEntries (codeRules ++ [⟨"code", .token, false⟩]) = .error fault ∧
      ∃ entry, FirstRepeated (codeRules ++ [⟨"code", .token, false⟩]) entry ∧
        fault.diagnostic =
          { kind := .config
            message :=
              "rule '" ++ entry.name ++ "' is registered twice in the rule-name table" } := by
  constructor
  · obtain ⟨hsucceeds, htabulates, -⟩ := entries_tabulated_or_repeated codeRules
    obtain ⟨table, htable⟩ := hsucceeds.2 (by decide)
    exact ⟨table, htable, htabulates table htable⟩
  · obtain ⟨hsucceeds, -, hfault⟩ :=
      entries_tabulated_or_repeated (codeRules ++ [⟨"code", .token, false⟩])
    cases hresult : ofEntries (codeRules ++ [⟨"code", .token, false⟩]) with
    | ok table => exact absurd (hsucceeds.1 ⟨table, hresult⟩) (by decide)
    | error fault => exact ⟨fault, rfl, (hfault fault hresult).2⟩

end HiccupReader.RuleTable
