import Lox.Files
import Lox.Session
import Lox.Text.Quoted
import Lox.Tree.Printer
import Lox.Tree.Json

namespace Lox.CommandLine

inductive Command where
  | tokenize (file : String)
  | parse (file : String) (json : Bool)
  | evaluate (file : String)
  | run (file : String) (maxDepth : Nat)
  | prompt (maxDepth : Nat)
  deriving DecidableEq, Repr

structure Invocation where
  command : Command
  log : Bool
  deriving DecidableEq, Repr

structure Seen where
  name? : Option String
  file? : Option String
  log : Bool
  /-- A log has been asked for since the command, or since the start if no command has come. It may
      be asked for before the command and again after it, but not twice in one place. -/
  logHere : Bool
  json : Bool
  maxDepth? : Option String

def limit? (text : String) : Option Nat :=
  let digits :=
    match text.toList with
    | '+' :: digits => digits
    | digits => digits
  if digits.isEmpty || !digits.all Char.isDigit then none
  else
    let value := digits.foldl (fun n c => 10 * n + (c.toNat - '0'.toNat)) 0
    if value < Nat.pow 2 64 then some value else none

def Seen.word (seen : Seen) (word : String) : Option Seen :=
  match seen.name?, seen.file? with
  | none, _ => some { seen with name? := some word, logHere := false }
  | some "repl", _ => none
  | some _, none => if word.isEmpty then none else some { seen with file? := some word }
  | some _, some _ => none

def Seen.runs (seen : Seen) : Bool := seen.name? == some "run" || seen.name? == some "repl"

def Seen.limit (seen : Seen) (text : String) : Option Seen :=
  if seen.runs && seen.maxDepth?.isNone then some { seen with maxDepth? := some text } else none

/-- Takes the arguments one by one. After two hyphens no argument is an option; they may not come
    before the command. -/
def Seen.take (seen : Seen) : List String → Option Seen
  | [] => some seen
  | "--" :: words => if seen.name?.isNone then none else words.foldlM Seen.word seen
  | "--log" :: rest =>
    if seen.logHere then none else { seen with log := true, logHere := true }.take rest
  | "--json" :: rest =>
    if seen.json || seen.name? != some "parse" then none else { seen with json := true }.take rest
  | "--max-depth" :: rest =>
    match rest with
    | [] => none
    | text :: rest => (seen.limit text).bind fun seen => seen.take rest
  | argument :: rest =>
    match argument.toList with
    | '-' :: '-' :: 'm' :: 'a' :: 'x' :: '-' :: 'd' :: 'e' :: 'p' :: 't' :: 'h' :: '=' :: text =>
      (seen.limit (.ofList text)).bind fun seen => seen.take rest
    | '-' :: _ :: _ => none
    | _ => (seen.word argument).bind fun seen => seen.take rest

/-- The limit on the active calls: an option wins over the environment, and that over the
    default. -/
def maxDepth? (option? environment? : Option String) : Option Nat :=
  match option?, environment? with
  | some text, _ => limit? text
  | none, some text => limit? text
  | none, none => some Config.defaultMaxDepth

def invocation? (arguments : List String) (environment? : Option String) : Option Invocation := do
  let seen ← Seen.take ⟨none, none, false, false, false, none⟩ arguments
  let command ←
    match seen.name?, seen.file? with
    | some "tokenize", some file => some (.tokenize file)
    | some "parse", some file => some (.parse file seen.json)
    | some "evaluate", some file => some (.evaluate file)
    | some "run", some file => (maxDepth? seen.maxDepth? environment?).map (.run file)
    | some "repl", none => (maxDepth? seen.maxDepth? environment?).map .prompt
    | _, _ => none
  some ⟨command, seen.log⟩

structure Response where
  out : ByteArray
  err : String
  status : Nat

namespace Response

def ofText (text : String) : Response := ⟨text.toUTF8, "", 0⟩

def ofError (out : ByteArray) (error : RunError) : Response :=
  ⟨out, error.text.push '\n', error.status⟩

def ofFailure (out : ByteArray) (context cause : String) : Response :=
  ⟨out, "Error: " ++ context ++ "\n\nCaused by:\n    " ++ cause ++ "\n", 1⟩

end Response

def lines (texts : List String) : String := String.join (texts.map (·.push '\n'))

def unreadable (file : String) (why : Unreadable) : Response :=
  .ofFailure ByteArray.empty ("Failed to " ++ why.action ++ " file " ++ Text.quote file) why.cause

def tokenize (source : List UInt8) : Response :=
  let (tokens, errors) := scanTokens source
  { out := (lines (tokens.map Token.text)).toUTF8
    err := lines (errors.map fun error => (StaticError.lexical error).text)
    status := if errors.isEmpty then 0 else RunError.staticStatus }

def parse (source : List UInt8) (json : Bool) : Response :=
  match parseProgram source with
  | .error errors => .ofError ByteArray.empty (.static errors)
  | .ok program =>
    if json then .ofText ((Stmt.programToJson program).pretty.push '\n')
    else .ofText (lines (program.map Stmt.printed))

def evaluate (config : Config) (steps : Nat) (source : List UInt8) : Option Response :=
  match Session.evaluate config steps [] source Machine.start with
  | .done value m => some ⟨m.output ++ (value.text.push '\n').toUTF8, "", 0⟩
  | .failed error m => some (.ofError m.output error)
  | .unfinished => none

def run (config : Config) (steps : Nat) (source : List UInt8) : Option Response :=
  match Session.run config steps [] source Machine.start with
  | .done _ m => some ⟨m.output, "", 0⟩
  | .failed error m => some (.ofError m.output error)
  | .unfinished => none

def promptText : String := "> "

/-- Runs one line at the prompt. The machine goes on without what the line has printed. -/
def promptLine (config : Config) (steps : Nat) (line : List UInt8) (m : Machine) :
    Option (Response × Machine) :=
  match Session.run config steps [] line { m with output := ByteArray.empty } with
  | .done _ m => some (⟨m.output, "", 0⟩, m)
  | .failed error m => some (⟨m.output, error.text.push '\n', 0⟩, m)
  | .unfinished => none

def takeLine? (input : List UInt8) : Option (List UInt8 × List UInt8) :=
  match input with
  | [] => none
  | _ =>
    let line := input.takeWhile (· != Scan.newline)
    match input.drop line.length with
    | [] => some (line, [])
    | _ :: rest =>
      some (if line.getLast? = some (Scan.byte '\r') then line.dropLast else line, rest)

theorem length_takeLine?_lt {input line rest : List UInt8}
    (h : takeLine? input = some (line, rest)) : rest.length < input.length := by
  unfold takeLine? at h
  split at h
  · cases h
  · rename_i nonempty
    dsimp only at h
    split at h
    · cases h
      cases input with
      | nil => exact absurd rfl nonempty
      | cons => simp
    · rename_i first after dropped
      cases h
      have := congrArg List.length dropped
      simp only [List.length_drop, List.length_cons] at this
      omega

def noText (out : ByteArray) (err : String) : Response :=
  let failure :=
    Response.ofFailure out "Failed to read from stdin" "stream did not contain valid UTF-8"
  { failure with err := err ++ failure.err }

def promptFrom (config : Config) (steps : Nat) (out : ByteArray) (err : String) (m : Machine)
    (input : List UInt8) : Option Response :=
  let out := out ++ promptText.toUTF8
  match h : takeLine? input with
  | none => some ⟨out ++ "\n".toUTF8, err, 0⟩
  | some (line, rest) =>
    have := length_takeLine?_lt h
    if (Text.Utf8.decode? line).isNone then some (noText out err)
    else
      match promptLine config steps line m with
      | some (response, m) =>
        promptFrom config steps (out ++ response.out) (err ++ response.err) m rest
      | none => none
termination_by input.length

def prompt (config : Config) (steps : Nat) (input : List UInt8) : Option Response :=
  promptFrom config steps ByteArray.empty "" Machine.start input

def logName : String := "app.log"

def Invocation.place (invocation : Invocation) (place : Place) : Place :=
  if invocation.log then place.put logName [] else place

def respond (config : Config) (steps : Nat) (read : String → Except Unreadable (List UInt8))
    (input : List UInt8) (command : Command) : Option Response :=
  let onFile (name : String) (use : List UInt8 → Option Response) : Option Response :=
    match read name with
    | .ok source => use source
    | .error why => some (unreadable name why)
  match command with
  | .tokenize name => onFile name fun source => some (tokenize source)
  | .parse name json => onFile name fun source => some (parse source json)
  | .evaluate name => onFile name (evaluate config steps)
  | .run name maxDepth => onFile name (run { config with maxDepth := maxDepth } steps)
  | .prompt maxDepth => prompt { config with maxDepth := maxDepth } steps input

end Lox.CommandLine
