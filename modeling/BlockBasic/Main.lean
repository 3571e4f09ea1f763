import BlockBasic.Invocation
/-!
# Main — the program

Opens the input, runs the command and prints the outcome; everything it prints is decided elsewhere.
-/
namespace BlockBasic
namespace Terminal

def usage : String := "usage: blockbasic (parse | tokens) [FILE] [--no-continuation] [--indent N] [--tabs]"

def reason : IO.Error → Text
  | .otherError code details | .resourceBusy code details | .resourceVanished code details
  | .unsupportedOperation code details | .hardwareFault code details | .unsatisfiedConstraints code details
  | .illegalOperation code details | .protocolError code details | .timeExpired code details
  | .interrupted _ code details | .noFileOrDirectory _ code details | .alreadyExists _ code details
  | .invalidArgument _ code details | .permissionDenied _ code details | .resourceExhausted _ code details
  | .inappropriateType _ code details | .noSuchThing _ code details =>
    details.toList ++ " (os error ".toList ++ Text.ofNat code.toNat ++ ")".toList
  | .unexpectedEof => "unexpected end of file".toList
  | .userError details => details.toList

def isMissing : IO.Error → Bool
  | .noFileOrDirectory _ _ _ => true
  | _                        => false

def feed (read : IO ByteArray) : IO Feed := do
  match ← read.toBaseIO with
  | .ok data => return Feed.ofArrivals [.bytes data.data.toList]
  | .error e => return Feed.ofArrivals [.failure (reason e)]

partial def drain (stream : IO.FS.Stream) (seen : ByteArray) : IO ByteArray := do
  let more ← stream.read 65536
  if more.isEmpty then return seen else drain stream (seen ++ more)

def openInput (file : Option Text) : IO Opening := do
  match file with
  | none      => return .opened (← feed (do drain (← IO.getStdin) ByteArray.empty))
  | some path =>
    match ← (IO.FS.Handle.mk (String.ofList path) .read).toBaseIO with
    | .ok handle => return .opened (← feed handle.readBinToEnd)
    | .error e   => return if isMissing e then .missing path else .refused (reason e)

end Terminal
end BlockBasic

open BlockBasic in
def main (args : List String) : IO UInt32 := do
  match Invocation.read {} (args.map String.toList) with
  | none            => do IO.eprintln Terminal.usage; return 2
  | some invocation =>
    match invocation.run? (← Terminal.openInput invocation.file) with
    | none         => do IO.eprintln Terminal.usage; return 2
    | some outcome => do
      IO.print (String.ofList outcome.output)
      IO.eprint (String.ofList outcome.errors)
      return outcome.code.toUInt32
