import WireColumns.Decimal.Literal
import WireColumns.Text.Pieces

/-! # Command lines

An argument that starts with `--` and a name, or with `-` and letters, is an option; `-` alone is
not. An option's value is attached (`--name=value`, `-xvalue`, `-x=value`) or is the next argument,
which then must not look like an option. All arguments behind `--` are operands. Help is given if
what stands in front of the request for it is acceptable so far, though something may be missing.
-/

namespace WireColumns

/-- An option that a command knows. -/
structure OptionSpec where
  name : String
  letter? : Option Char
  takesValue : Bool
  deriving DecidableEq, Repr

/-- A part of a command line. -/
inductive Argument
  | option (name : String) (value? : Option String)
  | operand (text : String)
  /-- a request for help, behind which nothing is looked at -/
  | help
  deriving DecidableEq, Repr

/-- Why a command line is not carried out. -/
inductive Refusal
  /-- it is not understood -/
  | usage
  /-- it asks for help -/
  | help
  deriving DecidableEq, Repr

namespace Argument

def looksLikeOption (text : String) : Bool :=
  match text.toList with
  | '-' :: _ :: _ => true
  | _ => false

/-- What is left of an argument without the sign between an option and its value. -/
def attachedValue? (text : List Char) : Option String :=
  match text with
  | [] => none
  | '=' :: value => some (String.ofList value)
  | value => some (String.ofList value)

/-- The options that letters behind a `-` stand for. The last one may still lack its value. -/
def ofLetters (specs : List OptionSpec) : List Char → Except Refusal (List Argument)
  | [] => .ok []
  | c :: rest =>
    match specs.find? (·.letter? == some c) with
    | some spec =>
      if spec.takesValue then .ok [.option spec.name (attachedValue? rest)]
      else (.option spec.name none :: ·) <$> ofLetters specs rest
    | none => if c = 'h' then .ok [.help] else .error .usage

/-- The option that the text behind `--` stands for. It may still lack its value. -/
def ofLongName (specs : List OptionSpec) (text : List Char) : Except Refusal Argument :=
  let (name, value) := text.span (· != '=')
  match specs.find? (·.name.toList == name) with
  | some spec =>
    if spec.takesValue ∨ value = [] then .ok (.option spec.name (attachedValue? value))
    else .error .usage
  | none => if text = "help".toList then .ok .help else .error .usage

/-- The options an argument stands for, or the operand. -/
def ofText (specs : List OptionSpec) (text : String) : Except Refusal (List Argument) :=
  match text.toList with
  | '-' :: '-' :: rest => ([·]) <$> ofLongName specs rest
  | '-' :: c :: rest => ofLetters specs (c :: rest)
  | _ => .ok [.operand text]

/-- Whether an option lacks its value. -/
def lacksValue (specs : List OptionSpec) : Argument → Bool
  | option name none => specs.any fun spec => spec.name == name && spec.takesValue
  | _ => false

/-- The parts of a command line, behind those in `seen`. -/
def parseFrom (specs : List OptionSpec) (seen : List Argument) :
    List String → Except Refusal (List Argument)
  | [] => .ok seen
  | "--" :: rest => .ok (seen ++ rest.map operand)
  | text :: rest =>
    match ofText specs text with
    | .error refusal => .error refusal
    | .ok parts =>
      match parts.getLast? with
      | some (option name none) =>
        if lacksValue specs (option name none) then
          match rest with
          | value :: rest =>
            if looksLikeOption value then .error .usage
            else parseFrom specs (seen ++ parts.dropLast ++ [option name (some value)]) rest
          | [] => .error .usage
        else parseFrom specs (seen ++ parts) rest
      | some help => .ok (seen ++ parts)
      | _ => parseFrom specs (seen ++ parts) rest

/-- The parts of a command line. -/
def parse (specs : List OptionSpec) (arguments : List String) : Except Refusal (List Argument) :=
  parseFrom specs [] arguments

/-- The operands in order. -/
def operands (arguments : List Argument) : List String :=
  arguments.filterMap fun
    | operand text => some text
    | _ => none

/-- The operand, where there can be one. -/
def operand? (arguments : List Argument) : Except Refusal (Option String) :=
  match operands arguments with
  | [] => .ok none
  | [text] => .ok (some text)
  | _ => .error .usage

/-- The values given to an option; an empty text where it takes none. -/
def valuesOf (name : String) (arguments : List Argument) : List String :=
  arguments.filterMap fun
    | option n value? => if n = name then some (value?.getD "") else none
    | _ => none

/-- The value of an option that can be given once. -/
def valueOf? (name : String) (arguments : List Argument) : Except Refusal (Option String) :=
  match valuesOf name arguments with
  | [] => .ok none
  | [value] => .ok (some value)
  | _ => .error .usage

/-- The value of an option that can be given once and takes a size. -/
def sizeOf? (name : String) (arguments : List Argument) : Except Refusal (Option Nat) := do
  match ← valueOf? name arguments with
  | none => return none
  | some text =>
    match Decimal.parseInteger .uint64 text.toList with
    | .ok n => return some n.toNat
    | .error _ => throw .usage

/-- Refuses arguments that ask for help. -/
def refuseHelp (arguments : List Argument) : Except Refusal Unit :=
  if help ∈ arguments then .error .help else .ok ()

end Argument

/-- What a command line asks for. -/
inductive Command
  /-- to decode the messages in a file to JSON -/
  | decode (configPath dataPath : String) (isPretty : Bool)
  /-- to show the first messages in a file -/
  | inspect (dataPath : String) (count : Nat) (isVerbose : Bool)
  /-- to convert levels to parent lists -/
  | levels (pattern : String) (pairs : List String) (batchSize? : Option Nat)
  /-- to name the program -/
  | version
  deriving DecidableEq, Repr

namespace Command

open Argument

def decodeOptions : List OptionSpec := [⟨"config", some 'c', true⟩, ⟨"pretty", none, false⟩]

def parseDecode (arguments : List String) : Except Refusal Command := do
  let parts ← Argument.parse decodeOptions arguments
  let config? ← valueOf? "config" parts
  let pretty? ← valueOf? "pretty" parts
  let file? ← operand? parts
  refuseHelp parts
  match config?, file? with
  | some config, some file => return .decode config file pretty?.isSome
  | _, _ => throw .usage

def inspectOptions : List OptionSpec :=
  [⟨"count", some 'n', true⟩, ⟨"verbose", some 'v', false⟩]

def parseInspect (arguments : List String) : Except Refusal Command := do
  let parts ← Argument.parse inspectOptions arguments
  let count? ← sizeOf? "count" parts
  let file? ← operand? parts
  refuseHelp parts
  match file? with
  | some file => return .inspect file (count?.getD 1) !(valuesOf "verbose" parts).isEmpty
  | none => throw .usage

def levelsOptions : List OptionSpec :=
  [⟨"pattern", some 'p', true⟩, ⟨"batch-size", some 'b', true⟩]

def parseLevels (arguments : List String) : Except Refusal Command := do
  let parts ← Argument.parse levelsOptions arguments
  let pattern? ← valueOf? "pattern" parts
  let batchSize? ← sizeOf? "batch-size" parts
  refuseHelp parts
  match pattern?, operands parts with
  | some pattern, pair :: pairs => return .levels pattern (pair :: pairs) batchSize?
  | _, _ => throw .usage

/-- The names of the commands. -/
def names : List String := ["decode", "inspect", "levels", "help"]

/-- Reads a command line, without the name of the program. -/
def parse : List String → Except Refusal Command
  | [] => .error .usage
  | "decode" :: rest => parseDecode rest
  | "inspect" :: rest => parseInspect rest
  | "levels" :: rest => parseLevels rest
  | "help" :: rest =>
    match rest with
    | [] => .error .help
    | [name] => .error (if name ∈ names then .help else .usage)
    | _ => .error .usage
  | text :: _ =>
    match text.toList with
    | '-' :: 'V' :: _ => .ok .version
    | '-' :: 'h' :: _ => .error .help
    | _ =>
      if text = "--version" then .ok .version
      else .error (if text = "--help" then .help else .usage)

end Command

end WireColumns
