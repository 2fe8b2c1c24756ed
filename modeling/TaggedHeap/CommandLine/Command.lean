import TaggedHeap.CommandLine.Arguments
import TaggedHeap.Word.Reading

/-!
# Commands

A command line names one command, with options of its own and words. The verbose option may stand in
front of the command and once more behind it; the version is told only in front. Items are taken from
left to right and the first thing that ends the reading decides.
-/

namespace TaggedHeap.CommandLine

inductive Command where
  | classify (words : List (List Char))
  | header (uid nfields : Nat) (marked : Bool)
  | dump (file : Option (List Char)) (summaryOnly : Bool)
  | repl
deriving DecidableEq, Repr

inductive Invocation where
  | command (verbose : Bool) (c : Command)
  | version
  | help
deriving DecidableEq, Repr

/-- What ends the reading of a command line early. -/
inductive Stop where
  | misuse (m : Misuse)
  | version
  | help
deriving DecidableEq, Repr

inductive CommandName where
  | classify
  | header
  | dump
  | repl
deriving DecidableEq, Repr

namespace CommandName

def all : List CommandName := [.classify, .header, .dump, .repl]

def text : CommandName → String
  | .classify => "classify"
  | .header => "header"
  | .dump => "dump"
  | .repl => "repl"

/-- The options that are known behind the command. -/
def flags : CommandName → List Flag
  | .classify => [.verbose, .help]
  | .header => [.uid, .nfields, .marked, .verbose, .help]
  | .dump => [.summary, .verbose, .help]
  | .repl => [.verbose, .help]

/-- Whether the command takes one more word after so many. -/
def takesWord (words : Nat) : CommandName → Bool
  | .classify => true
  | .header => false
  | .dump => words == 0
  | .repl => false

end CommandName

structure Settings where
  flags : List Flag := []
  uid : Option Nat := none
  nfields : Option Nat := none
  words : List (List Char) := []
deriving Repr

/-- The options that are known in front of the command. -/
def topFlags : List Flag := [.verbose, .version, .help]

/-- One past the largest uid that can be written, which is far above what a header can hold. -/
def uidLimit : Nat := 0x100000000

/-- A uid is a decimal numeral below the limit. Minus zero is zero. -/
def readUid? (text : List Char) : Option Nat :=
  match text with
  | '-' :: ds => (Numeral.readDigits? 10 ds).bind fun ds =>
      if Numeral.value 10 ds = 0 then some 0 else none
  | ds => Numeral.readBelow? uidLimit 10 ds

/-- A field count is a decimal numeral that fits a word. -/
def readFieldCount? (text : List Char) : Option Nat := Numeral.readBelow? wordLimit 10 text

namespace Settings

/-- Notes that an option was given; each may be given once. -/
def note (s : Settings) (f : Flag) : Except Stop Settings :=
  if f ∈ s.flags then .error (.misuse (.repeated f)) else .ok { s with flags := f :: s.flags }

def apply (name : CommandName) (s : Settings) : Item → Except Stop Settings
  | .misuse m => .error (.misuse m)
  | .pending f => .error (.misuse (.missingValue f))
  | .flag .help => .error .help
  | .flag .version => .error .version
  | .flag f => s.note f
  | .value f text => do
    let s ← s.note f
    match f with
    | .uid =>
      match readUid? text with
      | some n => return { s with uid := some n }
      | none => .error (.misuse (.invalidValue f text))
    | .nfields =>
      match readFieldCount? text with
      | some n => return { s with nfields := some n }
      | none => .error (.misuse (.invalidValue f text))
    | _ => .error (.misuse (.unexpectedValue f))
  | .word text =>
    if !name.takesWord s.words.length then .error (.misuse (.surplus text))
    else if name = .dump ∧ text = [] then .error (.misuse .emptyPath)
    else .ok { s with words := s.words ++ [text] }

def applyAll (name : CommandName) (s : Settings) (items : List Item) : Except Stop Settings :=
  items.foldlM (apply name) s

def command (s : Settings) : CommandName → Except Stop Command
  | .classify => if s.words.isEmpty then .error (.misuse .missingWords) else .ok (.classify s.words)
  | .header =>
    match s.uid with
    | none => .error (.misuse (.missingOption .uid))
    | some uid => .ok (.header uid (s.nfields.getD 0) (s.flags.contains .marked))
  | .dump => .ok (.dump s.words.head? (s.flags.contains .summary))
  | .repl => .ok .repl

end Settings

def readCommand (verbose : Bool) (name : CommandName) (args : List (List Char)) :
    Except Stop Invocation := do
  let s ← Settings.applyAll name {} (readArguments name.flags args)
  return .command (verbose || s.flags.contains .verbose) (← s.command name)

/-- Reads the options in one argument in front of the command; tells whether they include the
verbose one, given whether it was there before. -/
def readTop (verbose : Bool) : List Item → Except Stop Bool
  | [] => .ok verbose
  | .flag .verbose :: items =>
    if verbose then .error (.misuse (.repeated .verbose)) else readTop true items
  | .flag .version :: _ => .error .version
  | .flag .help :: _ => .error .help
  | .flag f :: _ => .error (.misuse (.unknownOption f.long.toList))
  | .value f _ :: _ => .error (.misuse (.unexpectedValue f))
  | .pending f :: _ => .error (.misuse (.missingValue f))
  | .word text :: _ => .error (.misuse (.unknownCommand text))
  | .misuse m :: _ => .error (.misuse m)

/-- The word behind which the help on a command is asked for. -/
def helpName : String := "help"

/-- Help is given on the whole or on one command. -/
def readHelp : List (List Char) → Except Stop Invocation
  | [] => .error .help
  | [name] =>
    if CommandName.all.any (·.text.toList == name) || helpName.toList == name then .error .help
    else .error (.misuse (.unknownCommand name))
  | _ :: name :: _ => .error (.misuse (.unknownCommand name))

/-- Reads a command line from its first argument on. -/
def readLine (verbose : Bool) : List (List Char) → Except Stop Invocation
  | [] => .error (.misuse .missingCommand)
  | arg :: rest =>
    if arg = ['-', '-'] then
      match rest with
      | [] => .error (.misuse .missingCommand)
      | text :: _ => .error (.misuse (.surplus text))
    else if isPlain arg then
      match CommandName.all.find? (·.text.toList == arg) with
      | some name => readCommand verbose name rest
      | none =>
        if arg = helpName.toList then readHelp rest
        else .error (.misuse (.unknownCommand arg))
    else
      match readTop verbose (readArgument topFlags arg) with
      | .error e => .error e
      | .ok verbose => readLine verbose rest

/-- What a command line asks for, or why it is refused. -/
def read (args : List (List Char)) : Except Misuse Invocation :=
  match readLine false args with
  | .ok i => .ok i
  | .error (.misuse m) => .error m
  | .error .version => .ok .version
  | .error .help => .ok .help

end TaggedHeap.CommandLine
