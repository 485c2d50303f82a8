import HiccupReader.Yaml.Block

/-! Flat YAML documents: a mapping, in block or in flow form, from names to scalars or to lists of
scalars. Whatever nests deeper is refused, and so are anchors, tags and directives. A name may
have a question mark in front; then it may go on over several lines. -/

namespace HiccupReader.Yaml

/-- A missing value is the empty plain scalar. -/
inductive Value
  | scalar (s : Scalar)
  | list (items : List Scalar)
  deriving DecidableEq

def Scalar.missing : Scalar := ⟨"", true⟩

def Value.missing : Value := .scalar .missing

abbrev Fields := List (String × Value)

def flowItems (indent : Nat) : (limit : Nat) → Place → Option (List Scalar × Place)
  | 0, _ => none
  | limit + 1, p => do
    let p := p.next true
    if p.rest.head? = some ']' then return ([], p.past 1)
    let (item, p) ← scalarAt true indent p
    let p := p.next true
    match p.rest with
    | ',' :: _ =>
      let (items, p) ← flowItems indent limit (p.past 1)
      return (item :: items, p)
    | ']' :: _ => return ([item], p.past 1)
    | _ => none

def flowList (indent : Nat) (p : Place) : Option (List Scalar × Place) :=
  flowItems indent (p.rest.length + 1) (p.past 1)

def flowValue (p : Place) : Option (Value × Place) :=
  let p := p.next true
  match p.rest with
  | ',' :: _ | '\x7d' :: _ => some (.missing, p)
  | '[' :: _ => (flowList 0 p).map fun (items, p) => (.list items, p)
  | _ => (scalarAt true 0 p).map fun (s, p) => (.scalar s, p)

def flowName (marked : Bool) (p : Place) : Option (Scalar × Place) :=
  match p.rest with
  | ':' :: _ | ',' :: _ | '\x7d' :: _ => if marked then some (.missing, p) else none
  | _ => scalarAt true 0 p

def flowFields : (limit : Nat) → Place → Option (Fields × Place)
  | 0, _ => none
  | limit + 1, p => do
    let p := p.next true
    if p.rest.head? = some '\x7d' then return ([], p.past 1)
    let marked := p.rest.head? == some '?'
    let start := if marked then (p.past 1).next true else p
    let (name, p) ← flowName marked start
    let p := p.next true
    let (value, p) ←
      if p.rest.head? = some ':' then
        if marked || p.belongsTo start then flowValue (p.past 1) else none
      else some (.missing, p)
    let p := p.next true
    match p.rest with
    | ',' :: _ =>
      let (fields, p) ← flowFields limit (p.past 1)
      return ((name.text, value) :: fields, p)
    | '\x7d' :: _ => return ([(name.text, value)], p.past 1)
    | _ => none

def lineDone (p : Place) : Option Place :=
  let p := p.next false
  if p.atEnd || p.fresh then some p else none

/-- Whether something that begins here is no part of what stands in `column`. Only the mark of a
block scalar need not be indented. -/
def outside (column : Nat) (p : Place) : Bool :=
  p.over || p.column < column || (p.column == column && !p.startsBlock)

def blockNode (column : Nat) (p : Place) : Option (Scalar × Place) := do
  let (s, p) ←
    match p.rest with
    | '|' :: _ => blockScalar false column p
    | '>' :: _ => blockScalar true column p
    | _ => scalarAt false (column + 1) p
  return (s, ← lineDone p)

def markedNode (column : Nat) (p : Place) : Option (Scalar × Place) :=
  let p := p.pastMark.next false
  if outside column p then some (.missing, p) else blockNode column p

def blockItems (column : Nat) : (limit : Nat) → Place → Option (List Scalar × Place)
  | 0, _ => none
  | limit + 1, p => do
    if p.over || p.column != column || !p.startsWith '-' then return ([], p)
    let (item, p) ← markedNode column p
    let (items, p) ← blockItems column limit p
    return (item :: items, p)

def blockValue (column : Nat) (p : Place) : Option (Value × Place) := do
  let p := p.next false
  if p.startsWith '-' && !p.over && column ≤ p.column then
    let (items, p) ← blockItems p.column (p.rest.length + 1) p
    return (.list items, p)
  else if outside column p then return (.missing, p)
  else if p.rest.head? = some '[' then
    let (items, p) ← flowList (column + 1) p
    return (.list items, ← lineDone p)
  else
    let (s, p) ← blockNode column p
    return (.scalar s, p)

/-- The name of a field in `column`, with the place after its colon, or with the place of the next
token if it has no colon. Only after a question mark the colon can be missing. -/
def blockName (column : Nat) (start : Place) : Option (Scalar × Place × Bool) := do
  if start.startsWith '?' then
    let (name, p) ← markedNode column start
    if p.column == column && p.startsWith ':' then return (name, p.pastMark, true)
    else return (name, p, false)
  else
    let (name, p) ← scalarAt false (column + 1) start
    let p := p.next false
    match p.rest with
    | ':' :: cs =>
      if p.belongsTo start && wordEnds cs then return (name, p.past 1, true) else none
    | _ => none

def blockFields (column : Nat) : (limit : Nat) → Place → Option (Fields × Place)
  | 0, _ => none
  | limit + 1, p => do
    if p.over then return ([], p)
    if p.column != column || !p.fresh then none
    let (name, p, hasColon) ← blockName column p
    let (value, p) ← if hasColon then blockValue column p else some (.missing, p)
    let (fields, p) ← blockFields column limit p
    return ((name.text, value) :: fields, p)

def nothingLeft : (limit : Nat) → Place → Bool
  | 0, _ => false
  | limit + 1, p =>
    p.atEnd || (p.column == 0 && endsDocument p.rest &&
      match lineDone (p.past 3) with
      | some p => nothingLeft limit p
      | none => false)

def mapping (p : Place) : Option (Fields × Place) :=
  match p.rest with
  | '\x7b' :: _ => do
    let (fields, p) ← flowFields (p.rest.length + 1) (p.past 1)
    return (fields, ← lineDone p)
  | _ => blockFields p.column (p.rest.length + 1) p

def documentOf (cs : List Char) : Option Fields := do
  let first := (Place.start cs).next false
  if first.column == 0 && endsDocument first.rest then none
  let p :=
    if first.column == 0 && startsDocument first.rest then (first.past 3).next false else first
  let (fields, p) ← if p.over then some ([], p) else mapping p
  if nothingLeft (p.rest.length + 1) p then some fields else none

def document (text : String) : Option Fields :=
  if text.toList.all isAllowed then documentOf (unifyBreaks text.toList) else none

end HiccupReader.Yaml
