import HiccupReader.Hiccup
import HiccupReader.RuleTable
import HiccupReader.Tree

/-! How trees are laid out as hiccup. A layout knows the rule table, says which child rules are
inlined, that is, give their parts to the rule around them, and refuses nodes whose kind does not
fit the table. -/

namespace HiccupReader

namespace Layout

inductive Policy
  | nested
  | passthrough
  | flat
  deriving DecidableEq

def Policy.name : Policy → String
  | nested => "nested"
  | passthrough => "passthrough"
  | flat => "flat"

def Policy.ofName? (name : String) : Option Policy :=
  [nested, passthrough, flat].find? fun policy => policy.name == name

theorem Policy.ofName?_name (p : Policy) : ofName? p.name = some p := by
  cases p <;> decide

end Layout

/-- `spliced` holds the rules that are marked in addition to the passthrough rules of the table.
They count only where the policy looks at marks. -/
structure Layout where
  table : RuleTable
  policy : Layout.Policy := .passthrough
  spliced : List Nat := []

namespace Layout

inductive SpliceFault
  | unknownName (name : String)
  | tokenName (name : String)
  deriving DecidableEq

def SpliceFault.diagnostic : SpliceFault → Diagnostic
  | unknownName name =>
    { kind := .unknownRule, message := s!"no grammar rule is named '{name}'" }
  | tokenName name =>
    { kind := .config
      message := s!"'{name}' is a token rule; only parser rules can be spliced" }

def splice (layout : Layout) (name : String) : Except SpliceFault Layout :=
  match layout.table.indexOf? name with
  | none => .error (.unknownName name)
  | some index =>
    match (layout.table.get? index).map RuleEntry.kind with
    | some .token => .error (.tokenName name)
    | _ => .ok { layout with spliced := layout.spliced.insert index }

def spliceAll (layout : Layout) : List String → Except SpliceFault Layout
  | [] => .ok layout
  | name :: names => do (← layout.splice name).spliceAll names

/-- Why a tree has no layout. The last two would be errors of the walk itself. -/
inductive Fault
  | leafOfParserRule (token : Token) (name : String)
  | leafOutsideTable (token : Token)
  | nodeOfTokenRule (found : RuleMatch) (children : Nat) (name : String)
  | nodeOutsideTable (found : RuleMatch) (size : Nat)
  | lostRoot
  | noSequence
  deriving DecidableEq

def Fault.diagnostic : Fault → Diagnostic
  | leafOfParserRule token name =>
    { kind := .unexpectedNodeKind
      message :=
        "terminal '" ++ token.text ++ s!"' carries parser rule '{name}' instead of a token rule"
      span? := some token.span }
  | leafOutsideTable token =>
    { kind := .unexpectedNodeKind
      message :=
        "terminal '" ++ token.text ++ "' carries token index " ++ toString token.rule ++
          ", which is not in the rule-name table"
      span? := some token.span }
  | nodeOfTokenRule found children name =>
    { kind := .unexpectedNodeKind
      message := s!"rule node with {children} children carries token rule '{name}'"
      span? := some found.span }
  | nodeOutsideTable found size =>
    { (RuleTable.Fault.missingIndex found.rule size).diagnostic with span? := some found.span }
  | lostRoot => { kind := .internal, message := "normalizer lost the root sequence" }
  | noSequence => { kind := .internal, message := "spliced rule has no enclosing sequence" }

def leaf (layout : Layout) (token : Token) : Except Fault Hiccup :=
  match layout.table.get? token.rule with
  | none => .error (.leafOutsideTable token)
  | some entry =>
    match entry.kind with
    | .token => .ok (.leaf token.text)
    | .parser => .error (.leafOfParserRule token entry.name)

def ruleEntry (layout : Layout) (found : RuleMatch) (children : Nat) :
    Except Fault RuleEntry :=
  match layout.table.get? found.rule with
  | none => .error (.nodeOutsideTable found layout.table.size)
  | some entry =>
    match entry.kind with
    | .parser => .ok entry
    | .token => .error (.nodeOfTokenRule found children entry.name)

def inlines (layout : Layout) (index : Nat) (entry : RuleEntry) : Bool :=
  match layout.policy with
  | .nested => false
  | .passthrough => entry.passthrough || layout.spliced.contains index
  | .flat => true

end Layout
end HiccupReader
