import HiccupReader.Clojure.Parse
import HiccupReader.Layout.Walk
import HiccupReader.Listing
import HiccupReader.Settings

/-! Readers: the lexer and the parser of the Clojure grammar with the layout that settings ask
for. -/

namespace HiccupReader

structure Reader where
  settings : Settings
  layout : Layout

namespace Reader

def unnamed : String := "<input>"

def defaultLayout : Layout := { table := Clojure.ruleTable }

def ofSettings (settings : Settings) : Except Layout.SpliceFault Reader := do
  let layout ← { defaultLayout with policy := settings.flatten }.spliceAll settings.splice
  return ⟨settings, layout⟩

inductive Fault
  | refused (error : Clojure.SyntaxError)
  | misshapen (fault : Layout.Fault)

def Fault.diagnostic (source : Source) : Fault → Diagnostic
  | refused error => error.diagnostic source
  | misshapen fault => fault.diagnostic.withSource source

def tokens (_ : Reader) (source : Source) : Except Fault (List Token) :=
  (Clojure.lex source.text).mapError .refused

def parse (_ : Reader) (source : Source) : Except Fault Tree :=
  (Clojure.parse source.text).mapError .refused

def read (reader : Reader) (source : Source) : Except Fault Hiccup := do
  let tree ← reader.parse source
  (reader.layout.walk tree).mapError .misshapen

def json (reader : Reader) (h : Hiccup) : String := h.json reader.settings.pretty

end Reader
end HiccupReader
