/-!
# Arguments

An argument is an option if it starts with a dash and has more to it. Long options take a value
behind an equals sign, short ones can be joined, and an option that takes a value swallows the rest
of its cluster or else the next argument, which may not be an option itself. A double dash ends the
options. Reading an argument gives the items in it up to the first one that is wrong.
-/

namespace TaggedHeap.CommandLine

inductive Flag where
  | verbose
  | version
  | help
  | uid
  | nfields
  | marked
  | summary
deriving DecidableEq, Repr

namespace Flag

def short : Flag → Char
  | .verbose => 'v'
  | .version => 'V'
  | .help => 'h'
  | .uid => 'u'
  | .nfields => 'n'
  | .marked => 'm'
  | .summary => 's'

def long : Flag → String
  | .verbose => "verbose"
  | .version => "version"
  | .help => "help"
  | .uid => "uid"
  | .nfields => "nfields"
  | .marked => "marked"
  | .summary => "summary"

def takesValue : Flag → Bool
  | .uid => true
  | .nfields => true
  | _ => false

end Flag

inductive Misuse where
  | unknownOption (text : List Char)
  | unexpectedValue (flag : Flag)
  | missingValue (flag : Flag)
  | invalidValue (flag : Flag) (text : List Char)
  | repeated (flag : Flag)
  | surplus (text : List Char)
  | emptyPath
  | unknownCommand (text : List Char)
  | missingCommand
  | missingWords
  | missingOption (flag : Flag)
deriving DecidableEq, Repr

def Misuse.message : Misuse → String
  | .unknownOption t => "unknown option '" ++ String.ofList t ++ "'"
  | .unexpectedValue f => "--" ++ f.long ++ " takes no value"
  | .missingValue f => "--" ++ f.long ++ " needs a value"
  | .invalidValue f t => "invalid value '" ++ String.ofList t ++ "' for --" ++ f.long
  | .repeated f => "--" ++ f.long ++ " is given twice"
  | .surplus t => "unexpected argument '" ++ String.ofList t ++ "'"
  | .emptyPath => "the path is empty"
  | .unknownCommand t => "unknown command '" ++ String.ofList t ++ "'"
  | .missingCommand => "a command is missing"
  | .missingWords => "a word is missing"
  | .missingOption f => "--" ++ f.long ++ " is missing"

/-- What a part of the command line says. -/
inductive Item where
  | flag (f : Flag)
  | value (f : Flag) (text : List Char)
  /-- The value is to come with the next argument. -/
  | pending (f : Flag)
  | word (text : List Char)
  | misuse (m : Misuse)
deriving DecidableEq, Repr

/-- An argument that is not taken for an option. -/
def isPlain : List Char → Bool
  | '-' :: _ :: _ => false
  | _ => true

/-- The items of a cluster of short options. -/
def readCluster (known : List Flag) : List Char → List Item
  | [] => []
  | c :: cs =>
    match known.find? (·.short == c) with
    | none => [.misuse (.unknownOption ['-', c])]
    | some f =>
      if f.takesValue then
        match cs with
        | [] => [.pending f]
        | '=' :: v => [.value f v]
        | v => [.value f v]
      else .flag f :: readCluster known cs

/-- The item of a long option, without its dashes. -/
def readLong (known : List Flag) (text : List Char) : Item :=
  let name := text.takeWhile (· != '=')
  match known.find? (·.long.toList == name) with
  | none => .misuse (.unknownOption ('-' :: '-' :: name))
  | some f =>
    match text.drop name.length with
    | [] => if f.takesValue then .pending f else .flag f
    | _ :: v => if f.takesValue then .value f v else .misuse (.unexpectedValue f)

def readArgument (known : List Flag) : List Char → List Item
  | '-' :: '-' :: text => [readLong known text]
  | '-' :: c :: cs => readCluster known (c :: cs)
  | text => [.word text]

/-- The items of the arguments. An option that is waiting for its value takes the first of them. -/
def readFrom (known : List Flag) (waiting : Option Flag) : List (List Char) → List Item
  | [] =>
    match waiting with
    | none => []
    | some f => [.misuse (.missingValue f)]
  | arg :: rest =>
    match waiting with
    | some f =>
      if isPlain arg then .value f arg :: readFrom known none rest
      else [.misuse (.missingValue f)]
    | none =>
      if arg = ['-', '-'] then rest.map .word
      else
        let items := readArgument known arg
        match items.getLast? with
        | some (.pending f) => items.dropLast ++ readFrom known (some f) rest
        | _ => items ++ readFrom known none rest

def readArguments (known : List Flag) (args : List (List Char)) : List Item :=
  readFrom known none args

end TaggedHeap.CommandLine
