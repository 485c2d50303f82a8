import HiccupReader.Files.Reading
import HiccupReader.Settings
import HiccupReader.Text.Basic
import HiccupReader.Yaml.Document
import HiccupReader.Yaml.Resolve
import HiccupReader.Yaml.Writing

/-! Settings as a YAML document, which may stand in a file. Fields that are left out keep their
defaults. -/

namespace HiccupReader.Settings

inductive Fault
  | malformed
  | unknownField (name : String)
  | repeatedField (name : String)
  | unsuitable (field : String)
  deriving DecidableEq

/-- The message goes on with what the YAML reader has to say about the trouble. Those words are left
out here, so that all troubles with a document are told alike. -/
def Fault.diagnostic (_ : Fault) : Diagnostic :=
  { kind := .config, message := "invalid reader configuration" }

def policyOf : Yaml.Value → Option Layout.Policy
  | .scalar s => Layout.Policy.ofName? s.text
  | .list _ => none

def truthOf : Yaml.Value → Option Bool
  | .scalar s => if s.plain then Yaml.truth? s.text else none
  | .list _ => none

/-- Items count by their texts. A missing value is the empty list. -/
def namesOf : Yaml.Value → Option (List String)
  | .scalar s => if s = .missing then some [] else none
  | .list items => some (items.map Yaml.Scalar.text)

def set (settings : Settings) (name : String) (value : Yaml.Value) : Except Fault Settings :=
  let orUnsuitable {α : Type} (found : Option α) (use : α → Settings) :=
    match found with
    | some a => Except.ok (use a)
    | none => .error (.unsuitable name)
  match name with
  | "flatten" => orUnsuitable (policyOf value) fun flatten => { settings with flatten }
  | "splice" => orUnsuitable (namesOf value) fun splice => { settings with splice }
  | "pretty" => orUnsuitable (truthOf value) fun pretty => { settings with pretty }
  | _ => .error (.unknownField name)

def setAll (settings : Settings) (seen : List String) : Yaml.Fields → Except Fault Settings
  | [] => .ok settings
  | (name, value) :: fields =>
    if name ∈ seen then .error (.repeatedField name)
    else do (← settings.set name value).setAll (name :: seen) fields

def ofYaml (text : String) : Except Fault Settings :=
  if Text.isBlankText text.toList then .ok {}
  else
    match Yaml.document text with
    | none => .error .malformed
    | some fields => ({} : Settings).setAll [] fields

def writeYaml (settings : Settings) : List Char :=
  "flatten: ".toList ++ settings.flatten.name.toList ++ '\n' ::
    ((if settings.splice.isEmpty then "splice: []\n".toList
      else "splice:\n".toList ++ settings.splice.flatMap Yaml.itemLines) ++
      "pretty: ".toList ++ (if settings.pretty then "true\n" else "false\n").toList)

def toYaml (settings : Settings) : String := String.ofList settings.writeYaml

inductive LoadFault
  | unreadable (file : Files.Unreadable)
  | invalid (fault : Fault)
  deriving DecidableEq

def LoadFault.diagnostic : LoadFault → Diagnostic
  | unreadable file => file.diagnostic
  | invalid fault => fault.diagnostic

def load (world : Files.World) (path : String) : Except LoadFault Settings := do
  let source ← (Files.readSource world path).mapError .unreadable
  (ofYaml source.text).mapError .invalid

end HiccupReader.Settings
