import HtmlHighlight.Clock
import HtmlHighlight.CommandLine.Run
import Std.Time.DateTime.Timestamp

/-!
# The program

Reads the source that the command line names and hands it to `CommandLine.run`, which decides all else.
-/

namespace HtmlHighlight

/-- The number of a system failure, which may come with its sign turned. -/
def failureCode (code : UInt32) : Nat :=
  (min code (-code)).toNat

/-- The failure that the system reported. -/
def ReadFailure.ofSystem : IO.Error → ReadFailure
  | .noFileOrDirectory .. => .notFound
  | .permissionDenied .. => .permissionDenied
  | .inappropriateType _ code _ => if failureCode code = 21 then .isDirectory else .notDirectory
  | .invalidArgument _ code reason =>
    if failureCode code = 36 then .nameTooLong else .other (failureCode code) reason
  | .otherError code reason => .other (failureCode code) reason
  | e => .other 0 e.toString

/-- The bytes of a stream from where it stands to its end. -/
partial def readBytes (stream : IO.FS.Stream) (bytes : ByteArray) : IO ByteArray := do
  let chunk ← stream.read 65536
  if chunk.isEmpty then return bytes else readBytes stream (bytes ++ chunk)

/-- The surroundings of a run that reads `source?`. -/
def systemEnvironment (source? : Option Source) : IO Environment := do
  let stdoutIsTerminal ← (← IO.getStdout).isTty
  match source? with
  | some (.file name) =>
    let content ← (IO.FS.readBinFile (String.ofList name)).toBaseIO
    return ⟨fun _ => content.mapError ReadFailure.ofSystem, .empty, stdoutIsTerminal⟩
  | some .stdin =>
    let bytes ← readBytes (← IO.getStdin) .empty
    return ⟨fun _ => .error .notFound, bytes, stdoutIsTerminal⟩
  | none => return ⟨fun _ => .error .notFound, .empty, stdoutIsTerminal⟩

/-- The time of day, in microseconds since the beginning of 1970. -/
def microseconds : IO Nat := do
  let now ← Std.Time.Timestamp.now
  return now.toNanosecondsSinceUnixEpoch.val.toNat / 1000

end HtmlHighlight

open HtmlHighlight in
def main (args : List String) : IO UInt32 := do
  let args := args.map String.toList
  let source? := match CommandLine.parse args with
    | .ok i => i.task.source?
    | .error _ => none
  let outcome := CommandLine.run (← systemEnvironment source?) args
  IO.eprint (String.ofList (outcome.errorOutput (Clock.timeText (← microseconds))))
  IO.print (String.ofList outcome.output)
  return outcome.status
