import Lox.CommandLine
import Std.Time.DateTime.Timestamp

namespace Lox.CommandLine

def usage : String := lines
  ["Usage: tokenize FILE",
    "       parse FILE [--json]",
    "       evaluate FILE",
    "       run FILE [--max-depth N]",
    "       repl [--max-depth N]",
    "Every command takes --log as well, to keep a log in " ++ logName ++ "."]

def usageStatus : UInt32 := 2

def Response.emit (response : Response) : IO UInt32 := do
  let out ← IO.getStdout
  out.write response.out
  out.flush
  IO.eprint response.err
  pure response.status.toUInt32

def failure (context : String) (error : IO.Error) : Response :=
  .ofFailure ByteArray.empty context (toString error)

/-- A clock that starts at the time of day, after `readings` earlier readings, and goes on by a
    microsecond with each. -/
def clockFrom (readings : Nat) : IO (Nat → Float) := do
  let millis := (← Std.Time.Timestamp.now).toMillisecondsSinceUnixEpoch.toInt
  let seconds := Float.ofInt millis / 1000
  pure fun reading => seconds + (reading - readings).toFloat / 1000000

def configFrom (readings : Nat) : IO Config := do
  pure { Config.standard with clock := ← clockFrom readings }

partial def readLine (input : IO.FS.Stream) (bytes : List UInt8) : IO (List UInt8) := do
  match (← input.read 1).data[0]? with
  | none => pure bytes.reverse
  | some byte =>
    if byte == Scan.newline then pure (byte :: bytes).reverse else readLine input (byte :: bytes)

partial def converse (maxDepth : Nat) (input : IO.FS.Stream) (m : Machine) : IO UInt32 := do
  let _ ← Response.emit (.ofText promptText)
  match takeLine? (← readLine input []) with
  | none => Response.emit (.ofText "\n")
  | some (line, _) =>
    if (Text.Utf8.decode? line).isNone then Response.emit (noText ByteArray.empty "")
    else
      let config := { ← configFrom m.readings with maxDepth := maxDepth }
      match promptLine config ampleSteps line m with
      | some (response, m) =>
        let _ ← response.emit
        converse maxDepth input m
      | none => pure 1

/-- Whether a code stands for the error `number`; some actions report the negative of the number. -/
def isError (number code : UInt32) : Bool := code == number || code == -number

def unreadableOf (error : IO.Error) : Unreadable :=
  match error with
  | .noFileOrDirectory .. => .missing
  | .inappropriateType _ code _ =>
    if isError 20 code then .notFolder
    else if isError 21 code then .folder
    else .other (toString error)
  | .invalidArgument _ code _ =>
    if isError 36 code then .nameTooLong else .other (toString error)
  | .permissionDenied _ code _ =>
    if isError 13 code then .notPermitted else .other (toString error)
  | _ => .other (toString error)

def readFile (file : String) : IO (Except Unreadable (List UInt8)) := do
  match ← (IO.FS.readBinFile file).toBaseIO with
  | .ok bytes => pure (.ok bytes.data.toList)
  | .error error => pure (.error (unreadableOf error))

def answerFile (file : String) (command : Command) : IO UInt32 := do
  let source ← readFile file
  match respond (← configFrom 0) ampleSteps (fun _ => source) [] command with
  | some response => response.emit
  | none => pure 1

def answer (command : Command) : IO UInt32 := do
  match command with
  | .prompt maxDepth => converse maxDepth (← IO.getStdin) Machine.start
  | .tokenize file | .parse file _ | .evaluate file | .run file _ => answerFile file command

def startLog (invocation : Invocation) : IO (Except IO.Error Unit) :=
  if invocation.log then (IO.FS.writeFile logName "").toBaseIO else pure (.ok ())

/-- The environment variable that limits the active calls: the program's name in capitals, then
    `_MAX_DEPTH`. -/
def environmentName : IO String := do
  pure (((← IO.appPath).fileName.getD "").toUpper ++ "_MAX_DEPTH")

def serve (arguments : List String) : IO UInt32 := do
  match invocation? arguments (← IO.getEnv (← environmentName)) with
  | none =>
    IO.eprint usage
    pure usageStatus
  | some invocation =>
    match ← startLog invocation with
    | .error error => (failure ("Failed to create " ++ logName) error).emit
    | .ok () => answer invocation.command

end Lox.CommandLine

def main (arguments : List String) : IO UInt32 := Lox.CommandLine.serve arguments
