import HiccupReader.CommandLine.Run

/-! The program: looks at the files that its arguments name, reads standard input where
it is asked for, and prints what the run gives. -/

namespace HiccupReader.Main

open CommandLine Files

def faultOf : IO.Error → Fault
  | .noFileOrDirectory .. => .notFound
  | .inappropriateType .. => .notFolder
  | error => .system (toString error)

mutual

partial def look (path : String) : IO Entry := do
  if ← (← IO.currentDir) / path |>.isDir then
    return .folder (← lookInside path)
  else
    return .file (← IO.FS.readBinFile path)

partial def lookInside (path : String) : IO (List (String × Entry)) := do
  let entries ← (← IO.currentDir) / path |>.readDir
  entries.toList.mapM fun entry => do
    return (entry.fileName, ← look (Path.join path entry.fileName))

end

def lookAt (path : String) : IO (String × Except Fault Entry) := do
  if path = "" then return (path, .error .notFound)
  try
    return (path, .ok (← look path))
  catch error =>
    return (path, .error (faultOf error))

def inputsOf : Command → List Input
  | .hiccup input _ => [input]
  | .tokens input => [input]
  | .rules => []

def pathsOf (invocation : Invocation) : List String :=
  invocation.config?.toList ++ (inputsOf invocation.command).flatMap fun input =>
    match input with
    | .paths paths => paths
    | _ => []

def readsStandardInput (invocation : Invocation) : Bool :=
  (inputsOf invocation.command).contains .standard

partial def readAll (stream : IO.FS.Stream) (bytes : ByteArray) : IO ByteArray := do
  let more ← stream.read 65536
  if more.isEmpty then return bytes else readAll stream (bytes ++ more)

def outcomeOf (arguments : List String) : IO Outcome := do
  match readArguments arguments with
  | .error _ => return run .empty .empty arguments
  | .ok invocation =>
    let findings ← (pathsOf invocation).mapM lookAt
    let bytes ←
      if readsStandardInput invocation then readAll (← IO.getStdin) .empty else pure .empty
    return run (.ofFindings findings) bytes arguments

end HiccupReader.Main

def main (arguments : List String) : IO UInt32 := do
  let outcome ← HiccupReader.Main.outcomeOf arguments
  IO.print outcome.output
  match outcome.failure? with
  | some failure =>
    IO.eprintln failure.code
    IO.eprintln failure.display
  | none => pure ()
  return outcome.exitCode.toUInt32
