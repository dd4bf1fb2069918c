import OpcodeTable.Command.Directory
import OpcodeTable.Command.Run

namespace OpcodeTable.Program

-- A number below zero when it is read as signed means the same as the one above zero.
def readError (code : UInt32) (text : String) : ReadError :=
  .ofNumber code.toInt32.toInt.natAbs text.capitalize

def reason : IO.Error → String
  | .alreadyExists _ code text | .otherError code text | .resourceBusy code text
  | .resourceVanished code text | .unsupportedOperation code text | .hardwareFault code text
  | .unsatisfiedConstraints code text | .illegalOperation code text | .protocolError code text
  | .timeExpired code text | .interrupted _ code text | .noFileOrDirectory _ code text
  | .invalidArgument _ code text | .permissionDenied _ code text | .resourceExhausted _ code text
  | .inappropriateType _ code text | .noSuchThing _ code text =>
    (readError code text).message
  | .unexpectedEof => "unexpected end of file"
  | .userError text => text

def contents (source : Option String) : IO (Except String (List UInt8)) := do
  let result ←
    match source with
    | some path => (IO.FS.readBinFile path).toBaseIO
    | none => do
      let stdin ← IO.getStdin
      stdin.readBinToEnd.toBaseIO
  match result with
  | .ok bytes => pure (.ok bytes.data.toList)
  | .error e => pure (.error (reason e))

end OpcodeTable.Program

open OpcodeTable in
def main (args : List String) : IO UInt32 := do
  let found ←
    match Arguments.read args with
    | .error _ => pure (.ok [])
    | .ok o => Program.contents o.source
  let outcome := (Host.ofContents fun _ => found).outcome none args
  let stdout ← IO.getStdout
  stdout.putStr outcome.stdout
  stdout.flush
  let stderr ← IO.getStderr
  stderr.putStr outcome.stderr
  return UInt32.ofNat outcome.status
