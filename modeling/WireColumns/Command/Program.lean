import WireColumns.Command.Arguments
import WireColumns.Command.Decode
import WireColumns.Command.Inspect
import WireColumns.Command.Levels
import WireColumns.Json.Parser

/-! # The program

What the program prints and how it ends, given its arguments and the contents of the files it
names.
-/

namespace WireColumns

/-- How a run of the program ends. -/
structure Outcome where
  exitCode : UInt32
  output : String
  errors : String
  deriving DecidableEq, Repr

namespace Program

/-- The name and version of the program. -/
def version : String := "strand-cmd 0.2.34"

def usage : String :=
  "Usage: strand-cmd decode --config <CONFIG> [--pretty] <FILE>\n" ++
  "       strand-cmd inspect [--count <COUNT>] [--verbose] <FILE>\n" ++
  "       strand-cmd levels --pattern <PATTERN> [--batch-size <BATCH_SIZE>] <LEVELS>...\n"

/-- The contents of a file, if there is one at the path. -/
abbrev Files := String → Option Bytes

/-- The contents of a file with messages. -/
def readData (files : Files) (path : String) : Except Failure Bytes :=
  match files path with
  | some data => .ok data
  | none => .error ⟨s!"Not a file: {path}", []⟩

/-- The configuration in a file. -/
def readConfig (files : Files) (path : String) : Except Failure DecodeConfig :=
  match (files path).bind Utf8.decode? with
  | none => .error ⟨s!"Failed to read config {path}", []⟩
  | some text =>
    match (Json.parse? text).bind DecodeConfig.ofJson? with
    | some config => .ok config
    | none => .error ⟨s!"Invalid decode config {path}", []⟩

/-- The outcome of printing a JSON value, or of a failure. -/
def printJson (layout : Json.Layout) : Except Failure Json → Outcome
  | .ok value => ⟨0, value.render layout ++ "\n", ""⟩
  | .error failure => ⟨1, "", failure.report ++ "\n"⟩

/-- Prints the messages of a file. The number of messages is printed before they are looked at. -/
def runInspect (files : Files) (path : String) (count : Nat) (isVerbose : Bool) : Outcome :=
  match readData files path >>= Delimited.splitOrFail with
  | .error failure => ⟨1, "", failure.report ++ "\n"⟩
  | .ok messages =>
    let title := s!"{messages.length} messages in {path}\n"
    match Inspect.dumpMessages messages count isVerbose with
    | .error failure => ⟨1, title, failure.report ++ "\n"⟩
    | .ok lines => ⟨0, title ++ String.join (lines.map (· ++ "\n")), ""⟩

/-- Carries out a command. -/
def runCommand (files : Files) : Command → Outcome
  | .decode configPath dataPath isPretty =>
    printJson (if isPretty then .indented else .compact) do
      let config ← readConfig files configPath
      let data ← readData files dataPath
      config.decodeStream data
  | .inspect dataPath count isVerbose => runInspect files dataPath count isVerbose
  | .levels pattern pairs batchSize? =>
    printJson .indented (Levels.toJson pattern pairs batchSize?)
  | .version => ⟨0, version ++ "\n", ""⟩

/-- Runs the program. -/
def run (files : Files) (arguments : List String) : Outcome :=
  match Command.parse arguments with
  | .ok command => runCommand files command
  | .error .help => ⟨0, usage, ""⟩
  | .error .usage => ⟨2, "", usage⟩

/-- The files a command line may have read. -/
def paths (arguments : List String) : List String :=
  match Command.parse arguments with
  | .ok (.decode configPath dataPath _) => [configPath, dataPath]
  | .ok (.inspect dataPath _ _) => [dataPath]
  | _ => []

end Program

end WireColumns
