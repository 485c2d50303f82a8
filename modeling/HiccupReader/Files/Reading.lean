import HiccupReader.Diagnostic
import HiccupReader.Files.Entry

/-! Reading named texts, where a failure is told with the name. -/

namespace HiccupReader.Files

structure Unreadable where
  name : String
  fault : Fault
  deriving DecidableEq

def Unreadable.diagnostic (u : Unreadable) : Diagnostic :=
  { kind := .io, message := "cannot read '" ++ u.name ++ "': " ++ u.fault.words }

def readSource (world : World) (path : String) : Except Unreadable Source :=
  match world.readText path with
  | .ok text => .ok ⟨path, text⟩
  | .error fault => .error ⟨path, fault⟩

def decodeSource (name : String) (bytes : ByteArray) : Except Unreadable Source :=
  match decode bytes with
  | .ok text => .ok ⟨name, text⟩
  | .error fault => .error ⟨name, fault⟩

end HiccupReader.Files
