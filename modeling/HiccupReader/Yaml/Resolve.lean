/-! Plain texts that YAML reads as something other than text: null, truth values, integers and
floating point numbers. -/

namespace HiccupReader.Yaml

def isNull (text : String) : Bool := ["null", "Null", "NULL", "~"].contains text

def truth? (text : String) : Option Bool :=
  if ["true", "True", "TRUE"].contains text then some true
  else if ["false", "False", "FALSE"].contains text then some false
  else none

def digitValue? (base : Nat) (c : Char) : Option Nat :=
  let value? :=
    if c.isDigit then some (c.toNat - '0'.toNat)
    else if 'a' ≤ c ∧ c ≤ 'f' then some (c.toNat - 'a'.toNat + 10)
    else if 'A' ≤ c ∧ c ≤ 'F' then some (c.toNat - 'A'.toNat + 10)
    else none
  value?.filter (· < base)

def numeral? (base : Nat) : List Char → Option Nat
  | [] => none
  | c :: cs =>
    (c :: cs).foldl
      (fun value? c => do return (← value?) * base + (← digitValue? base c)) (some 0)

def isSign (c : Char) : Bool := c == '+' || c == '-'

def withoutSign : List Char → List Char
  | [] => []
  | c :: cs => if isSign c then cs else c :: cs

def marked? : List Char → Option Nat
  | '0' :: 'x' :: cs => numeral? 16 cs
  | '0' :: 'o' :: cs => numeral? 8 cs
  | '0' :: 'b' :: cs => numeral? 2 cs
  | _ => none

/-- Integers in a marked base have to fit in 128 bits; those in decimal digits, of any size, are
numbers in any case. -/
def isMarkedInteger : List Char → Bool
  | '-' :: cs => (marked? cs).any (· ≤ Nat.pow 2 127)
  | '+' :: cs => (marked? cs).any (· < Nat.pow 2 128)
  | cs => (marked? cs).any (· < Nat.pow 2 128)

/-- Digits after a leading zero, which are text unlike a lone zero, and are easily taken for a
number. -/
def isPaddedInteger (cs : List Char) : Bool :=
  match withoutSign cs with
  | '0' :: c :: cs => (c :: cs).all Char.isDigit
  | _ => false

structure Decimal where
  digits : List Char
  exponent : Int

def exponent? : List Char → Option Int
  | '-' :: cs => (numeral? 10 cs).map fun n => -(n : Int)
  | '+' :: cs => (numeral? 10 cs).map fun n => (n : Int)
  | cs => (numeral? 10 cs).map fun n => (n : Int)

def decimal? (cs : List Char) : Option Decimal :=
  let cs := withoutSign cs
  let whole := cs.takeWhile Char.isDigit
  let (fraction, rest) :=
    match cs.dropWhile Char.isDigit with
    | '.' :: cs => (cs.takeWhile Char.isDigit, cs.dropWhile Char.isDigit)
    | cs => ([], cs)
  let digits := whole ++ fraction
  if digits.isEmpty then none
  else
    match rest with
    | [] => some ⟨digits, -(fraction.length : Int)⟩
    | 'e' :: cs | 'E' :: cs =>
      (exponent? cs).map fun e => ⟨digits, e - (fraction.length : Int)⟩
    | _ => none

/-- Half a unit in the last place above the largest finite double; from here on a decimal number
rounds to infinity. -/
def overflow : Nat := Nat.pow 2 1024 - Nat.pow 2 970

def Decimal.isFinite (d : Decimal) : Bool :=
  let digits := d.digits.dropWhile (· == '0')
  let magnitude := (digits.length : Int) + d.exponent
  let value := (numeral? 10 digits).getD 0
  if digits.isEmpty || magnitude < 309 then true
  else if 309 < magnitude then false
  else if 0 ≤ d.exponent then value * Nat.pow 10 d.exponent.toNat < overflow
  else value < overflow * Nat.pow 10 (-d.exponent).toNat

def isFloat (text : String) : Bool :=
  [".inf", ".Inf", ".INF", "+.inf", "+.Inf", "+.INF", "-.inf", "-.Inf", "-.INF", ".nan", ".NaN",
    ".NAN"].contains text ||
  (decimal? text.toList).any Decimal.isFinite

def isPlainText (text : String) : Bool :=
  !(text.isEmpty || isNull text || (truth? text).isSome || isMarkedInteger text.toList ||
    isPaddedInteger text.toList || isFloat text)

end HiccupReader.Yaml
