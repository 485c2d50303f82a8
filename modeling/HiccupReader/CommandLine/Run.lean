import HiccupReader.CommandLine.Arguments
import HiccupReader.Documents
import HiccupReader.Files.Sources
import HiccupReader.Reader
import HiccupReader.Settings.Yaml

/-! What a run of the program does, given the files it finds and its standard input. All sources
are read before the first one is worked on. -/

namespace HiccupReader.CommandLine

structure Outcome where
  output : String
  exitCode : Nat
  failure? : Option Diagnostic

def Outcome.success (output : String) : Outcome := ⟨output, 0, none⟩

def Outcome.failed (output : String) (failure : Diagnostic) : Outcome :=
  ⟨output, 1, some failure⟩

def versionText : String := "parcera 0.1.0\n"

def settingsFor (world : Files.World) (invocation : Invocation) :
    Except Diagnostic Settings := do
  let settings ←
    match invocation.config? with
    | some path => (Settings.load world path).mapError Settings.LoadFault.diagnostic
    | none => pure {}
  return { settings with
    flatten := invocation.flatten?.getD settings.flatten
    splice := settings.splice ++ invocation.splice }

def readSources (world : Files.World) : List String → Except Files.Unreadable (List Source)
  | [] => .ok []
  | path :: paths => do
    let source ← Files.readSource world path
    let sources ← readSources world paths
    return source :: sources

def sourcesFor (world : Files.World) (standardInput : ByteArray) :
    Input → Except Diagnostic (List Source)
  | .expression text => .ok [⟨"<expr>", text⟩]
  | .standard => do
    let source ←
      (Files.decodeSource "<stdin>" standardInput).mapError Files.Unreadable.diagnostic
    return [source]
  | .paths roots => do
    let paths ← (Files.findSources world roots).mapError Files.SearchFault.diagnostic
    (readSources world paths).mapError Files.Unreadable.diagnostic

def readAll (reader : Reader) : List Source → Except Diagnostic (List (String × Hiccup))
  | [] => .ok []
  | source :: sources => do
    let h ← (reader.read source).mapError (Reader.Fault.diagnostic source)
    let documents ← readAll reader sources
    return (source.name, h) :: documents

def listTokens (reader : Reader) (output : String) : List Source → Outcome
  | [] => .success output
  | source :: sources =>
    match reader.tokens source with
    | .error fault => .failed output (fault.diagnostic source)
    | .ok tokens =>
      listTokens reader (output ++ Listing.tokens reader.layout.table tokens) sources

def readerFor (settings : Settings) : Except Diagnostic Reader :=
  (Reader.ofSettings settings).mapError Layout.SpliceFault.diagnostic

def runCommand (world : Files.World) (standardInput : ByteArray) (settings : Settings) :
    Command → Except Diagnostic Outcome
  | .hiccup input compact => do
    let settings := { settings with pretty := settings.pretty && !compact }
    let reader ← readerFor settings
    let sources ← sourcesFor world standardInput input
    let documents ← readAll reader sources
    return .success (Documents.text documents settings.pretty ++ "\n")
  | .tokens input => do
    let reader ← readerFor settings
    let sources ← sourcesFor world standardInput input
    return listTokens reader "" sources
  | .rules => do
    let reader ← readerFor settings
    return .success (Listing.rules reader.layout.table)

def runInvocation (world : Files.World) (standardInput : ByteArray) (invocation : Invocation) :
    Outcome :=
  let outcome := do
    let settings ← settingsFor world invocation
    runCommand world standardInput settings invocation.command
  match outcome with
  | .ok outcome => outcome
  | .error failure => .failed "" failure

/-- A whole run of the program. Misuse ends with the exit code 2. The texts that tell how the
program is used are left out, both where help is asked for and after a misuse. -/
def run (world : Files.World) (standardInput : ByteArray) (arguments : List String) : Outcome :=
  match readArguments arguments with
  | .ok invocation => runInvocation world standardInput invocation
  | .error .version => .success versionText
  | .error .help => .success ""
  | .error (.misused _) => ⟨"", 2, none⟩

end HiccupReader.CommandLine
