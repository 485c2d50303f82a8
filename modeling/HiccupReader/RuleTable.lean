import HiccupReader.Diagnostic

/-! Rule tables: the names and kinds of grammar rules by index. No two entries of a table share
a name, so that names and indices stand for each other. -/

namespace HiccupReader

inductive RuleKind
  | parser
  | token
  deriving DecidableEq

def RuleKind.label : RuleKind → String
  | parser => "parser"
  | token => "token"

/-- A passthrough rule only groups a repetition; its parts usually join those of its parent. -/
structure RuleEntry where
  name : String
  kind : RuleKind
  passthrough : Bool := false
  deriving DecidableEq

structure RuleTable where
  entries : List RuleEntry
  names_nodup : (entries.map RuleEntry.name).Nodup

namespace RuleTable

inductive Fault
  | repeatedName (name : String)
  | missingIndex (index size : Nat)
  deriving DecidableEq

def Fault.diagnostic : Fault → Diagnostic
  | repeatedName name =>
    { kind := .config, message := s!"rule '{name}' is registered twice in the rule-name table" }
  | missingIndex index size =>
    { kind := .unknownRule
      message := s!"rule index {index} has no entry in the rule-name table ({size} rules)" }

def firstRepeated? (seen : List String) : List String → Option String
  | [] => none
  | name :: names =>
    if name ∈ seen then some name else firstRepeated? (name :: seen) names

theorem firstRepeated?_eq_none_iff (seen names : List String) :
    firstRepeated? seen names = none ↔ names.Nodup ∧ ∀ name ∈ names, name ∉ seen := by
  induction names generalizing seen with
  | nil => simp [firstRepeated?]
  | cons name names ih =>
    unfold firstRepeated?
    split
    · next h => simp [h]
    · next h =>
      rw [ih]
      simp only [List.nodup_cons, List.mem_cons, forall_eq_or_imp, not_or]
      constructor
      · rintro ⟨hn, ha⟩
        exact ⟨⟨fun hm => (ha name hm).1 rfl, hn⟩, h, fun x hx => (ha x hx).2⟩
      · rintro ⟨⟨hm, hn⟩, -, ha⟩
        exact ⟨hn, fun x hx => ⟨fun e => hm (e ▸ hx), ha x hx⟩⟩

def ofEntries (entries : List RuleEntry) : Except Fault RuleTable :=
  match h : firstRepeated? [] (entries.map RuleEntry.name) with
  | some name => .error (.repeatedName name)
  | none => .ok ⟨entries, ((firstRepeated?_eq_none_iff _ _).1 h).1⟩

def size (table : RuleTable) : Nat := table.entries.length

def isEmpty (table : RuleTable) : Bool := table.entries.isEmpty

def get? (table : RuleTable) (index : Nat) : Option RuleEntry := table.entries[index]?

def name? (table : RuleTable) (index : Nat) : Option String :=
  (table.get? index).map RuleEntry.name

def indexOf? (table : RuleTable) (name : String) : Option Nat :=
  table.entries.findIdx? (·.name == name)

def resolve (table : RuleTable) (index : Nat) : Except Fault RuleEntry :=
  match table.get? index with
  | some entry => .ok entry
  | none => .error (.missingIndex index table.size)

def toList (table : RuleTable) : List (Nat × RuleEntry) :=
  table.entries.zipIdx.map fun (entry, index) => (index, entry)

end RuleTable
end HiccupReader
