import HiccupReader.Layout.Basic

/-! The arguments of the program: options, one command, and the options and paths of the command.
Some options may stand before the command as well as after it; what stands after it counts. -/

namespace HiccupReader.CommandLine

inductive Input
  | expression (text : String)
  | paths (paths : List String)
  | standard
  deriving DecidableEq

inductive Command
  | hiccup (input : Input) (compact : Bool)
  | tokens (input : Input)
  | rules
  deriving DecidableEq

structure Invocation where
  command : Command
  config? : Option String
  flatten? : Option Layout.Policy
  splice : List String
  deriving DecidableEq

inductive UsageError
  | unknownOption (name : String)
  | missingValue (name : String)
  | unexpectedValue (name : String)
  | invalidValue (name value : String)
  | repeatedOption (name : String)
  | unexpectedArgument (text : String)
  | conflict
  | missingCommand
  | unknownCommand (name : String)
  deriving DecidableEq

inductive Halt
  | version
  | help
  | misused (error : UsageError)
  deriving DecidableEq

inductive CommandName
  | hiccup
  | tokens
  | rules
  deriving DecidableEq

def CommandName.ofName? : String → Option CommandName
  | "hiccup" => some hiccup
  | "tokens" => some tokens
  | "rules" => some rules
  | _ => none

inductive ValueOption
  | config
  | flatten
  | splice
  | expr
  deriving DecidableEq

inductive Flag
  | verbose
  | compact
  | version
  | help
  deriving DecidableEq

inductive Level
  | outer
  | inner (command : CommandName)
  deriving DecidableEq

namespace Level

def valueOption? (level : Level) : String → Option ValueOption
  | "config" => some .config
  | "flatten" => some .flatten
  | "splice" => some .splice
  | "expr" =>
    if level = inner .hiccup ∨ level = inner .tokens then some .expr else none
  | _ => none

def flag? (level : Level) : String → Option Flag
  | "verbose" => some .verbose
  | "help" => some .help
  | "compact" => if level = inner .hiccup then some .compact else none
  | "version" => if level = outer then some .version else none
  | _ => none

def shortFlag? (level : Level) : Char → Option Flag
  | 'v' => some .verbose
  | 'h' => some .help
  | 'V' => if level = outer then some .version else none
  | _ => none

end Level

structure Given where
  config? : Option String := none
  flatten? : Option Layout.Policy := none
  splice : List String := []
  verbosity : Nat := 0
  expr? : Option String := none
  compact : Bool := false
  positionals : List String := []

namespace Given

def setFlag (given : Given) : Flag → Except Halt Given
  | .verbose => .ok { given with verbosity := given.verbosity + 1 }
  | .compact =>
    if given.compact then .error (.misused (.repeatedOption "compact"))
    else .ok { given with compact := true }
  | .version => .error .version
  | .help => .error .help

def setValue (given : Given) (option : ValueOption) (value : String) : Except Halt Given :=
  match option with
  | .config =>
    if value = "" then .error (.misused (.missingValue "config"))
    else if given.config?.isSome then .error (.misused (.repeatedOption "config"))
    else .ok { given with config? := some value }
  | .flatten =>
    match Layout.Policy.ofName? value with
    | none => .error (.misused (.invalidValue "flatten" value))
    | some policy =>
      if given.flatten?.isSome then .error (.misused (.repeatedOption "flatten"))
      else .ok { given with flatten? := some policy }
  | .splice => .ok { given with splice := given.splice ++ [value] }
  | .expr =>
    if given.expr?.isSome then .error (.misused (.repeatedOption "expr"))
    else .ok { given with expr? := some value }

def setShortFlags (given : Given) (level : Level) : List Char → Except Halt Given
  | [] => .ok given
  | c :: cs =>
    match level.shortFlag? c with
    | none => .error (.misused (.unknownOption (String.singleton c)))
    | some flag => do (← given.setFlag flag).setShortFlags level cs

def addPositional (given : Given) (command : CommandName) (text : String) :
    Except Halt Given :=
  if text = "" ∨ command = .rules ∨ (command = .tokens ∧ given.positionals ≠ []) then
    .error (.misused (.unexpectedArgument text))
  else .ok { given with positionals := given.positionals ++ [text] }

def addPositionals (given : Given) (command : CommandName) : List String → Except Halt Given
  | [] => .ok given
  | text :: texts => do (← given.addPositional command text).addPositionals command texts

end Given

inductive Shape
  | separator
  | long (name : String) (value? : Option String)
  | short (flags : List Char)
  | word

def shapeOf (argument : String) : Shape :=
  match argument.toList with
  | ['-', '-'] => .separator
  | '-' :: '-' :: cs =>
    let name := String.ofList (cs.takeWhile (· != '='))
    match cs.dropWhile (· != '=') with
    | [] => .long name none
    | _ :: value => .long name (some (String.ofList value))
  | '-' :: c :: cs => .short (c :: cs)
  | _ => .word

def looksLikeOption (argument : String) : Bool :=
  match shapeOf argument with
  | .word => false
  | _ => true

/-- What an argument does that is no value of an option: it gives something, it announces the
value of an option, or it ends the level with the name of the command. -/
inductive Step
  | given (given : Given)
  | announces (option : ValueOption) (name : String)
  | names (command : String)

def takeLong (level : Level) (given : Given) (name : String) :
    (value? : Option String) → Except Halt Step
  | none =>
    match level.flag? name, level.valueOption? name with
    | some flag, _ => do return .given (← given.setFlag flag)
    | none, some option => .ok (.announces option name)
    | none, none => .error (.misused (.unknownOption name))
  | some value =>
    match level.valueOption? name, level.flag? name with
    | some option, _ => do return .given (← given.setValue option value)
    | none, some _ => .error (.misused (.unexpectedValue name))
    | none, none => .error (.misused (.unknownOption name))

def takeWord (level : Level) (given : Given) (word : String) : Except Halt Step :=
  match level with
  | .outer => .ok (.names word)
  | .inner command => do return .given (← given.addPositional command word)

def takeRest (level : Level) (given : Given) (rest : List String) : Except Halt Given :=
  match level, rest with
  | .inner command, rest => given.addPositionals command rest
  | .outer, [] => .ok given
  | .outer, text :: _ => .error (.misused (.unexpectedArgument text))

/-- Reads the arguments of one level, where an option may await its value. Before the command it
ends with the word that names the command and the arguments after that word. -/
def readLevel (level : Level) :
    (awaiting? : Option (ValueOption × String)) → Given → List String →
      Except Halt (Given × Option (String × List String))
  | some (_, name), _, [] => .error (.misused (.missingValue name))
  | none, given, [] => .ok (given, none)
  | some (option, name), given, argument :: rest =>
    if looksLikeOption argument then .error (.misused (.missingValue name))
    else
      match given.setValue option argument with
      | .error halt => .error halt
      | .ok given => readLevel level none given rest
  | none, given, argument :: rest =>
    let step :=
      match shapeOf argument with
      | .separator => none
      | .long name value? => some (takeLong level given name value?)
      | .short flags => some ((given.setShortFlags level flags).map .given)
      | .word => some (takeWord level given argument)
    match step with
    | none => do return (← takeRest level given rest, none)
    | some (.error halt) => .error halt
    | some (.ok (.given given)) => readLevel level none given rest
    | some (.ok (.announces option name)) => readLevel level (some (option, name)) given rest
    | some (.ok (.names word)) => .ok (given, some (word, rest))

def inputOf (given : Given) : Except Halt Input :=
  match given.expr?, given.positionals with
  | some _, _ :: _ => .error (.misused .conflict)
  | some text, [] => .ok (.expression text)
  | none, [] => .ok .standard
  | none, paths => .ok (.paths paths)

def commandOf (name : CommandName) (given : Given) : Except Halt Command :=
  match name with
  | .hiccup => do return .hiccup (← inputOf given) given.compact
  | .tokens => do return .tokens (← inputOf given)
  | .rules => .ok .rules

def helpOn : List String → Halt
  | [] => .help
  | [name] =>
    if name = "help" ∨ (CommandName.ofName? name).isSome then .help
    else .misused (.unknownCommand name)
  | _ :: name :: _ => .misused (.unknownCommand name)

def readArguments (arguments : List String) : Except Halt Invocation := do
  let (outer, command?) ← readLevel .outer none {} arguments
  match command? with
  | none => .error (.misused .missingCommand)
  | some ("help", rest) => .error (helpOn rest)
  | some (word, rest) =>
    match CommandName.ofName? word with
    | none => .error (.misused (.unknownCommand word))
    | some name =>
      let (inner, _) ← readLevel (.inner name) none {} rest
      return {
        command := ← commandOf name inner
        config? := inner.config?.or outer.config?
        flatten? := inner.flatten?.or outer.flatten?
        splice := if inner.splice = [] then outer.splice else inner.splice }

end HiccupReader.CommandLine
