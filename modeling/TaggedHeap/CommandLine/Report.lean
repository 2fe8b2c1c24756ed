import TaggedHeap.CommandLine.Command
import TaggedHeap.Dump
import TaggedHeap.Layout
import TaggedHeap.Summary
import TaggedHeap.Text.Backspace

/-!
# Reports

What a command prints, line by line, and what it fails with, if it fails. The lines in front of a
failure are printed. Commands that read a file or standard input are given all its bytes.
-/

namespace TaggedHeap.CommandLine

inductive Failure where
  | unreadWord (e : ReadError)
  | fault (f : Fault)
  | unreadable
  | notText
  | splitCharacter
deriving DecidableEq, Repr

def Failure.message : Failure → String
  | .unreadWord e => e.message
  | .fault f => f.message Numeral.hex
  | .unreadable => "the dump cannot be read"
  | .notText => "the dump is not UTF-8 text"
  | .splitCharacter => "a backspace takes away a part of a character"

/-- One, but 101 for a session that breaks off at a backspace. -/
def Failure.exitCode : Failure → Nat
  | .splitCharacter => 101
  | _ => 1

structure Report where
  lines : List String
  failure : Option Failure := none
deriving DecidableEq, Repr

/-- Where a command takes its text from. -/
inductive Input where
  | nothing
  | standard
  | file (path : List Char)
deriving DecidableEq, Repr

/-- The characters of bytes that are UTF-8. -/
def decodeText? (bytes : List UInt8) : Option (List Char) :=
  (String.fromUTF8? ⟨bytes.toArray⟩).map String.toList

/-- One line on each word, up to the first that cannot be read. -/
def classify : List (List Char) → Report
  | [] => ⟨[], none⟩
  | t :: ts =>
    match Word.read t with
    | .error e => ⟨[], some (.unreadWord e)⟩
    | .ok w =>
      let rest := classify ts
      ⟨w.describe :: rest.lines, rest.failure⟩

def describeHeader (uid nfields : Nat) (marked : Bool) : Report :=
  match Header.ofFields? uid nfields with
  | .error f => ⟨[], some (.fault f)⟩
  | .ok h =>
    let h := if marked then h.mark else h
    ⟨[h.toWord.describe, "layout: " ++ h.layout.text], none⟩

/-- The listing of a dump and an empty line, unless only the summary is wanted, and its summary. -/
def showDump (summaryOnly : Bool) (text : List Char) : Report :=
  match Dump.read text with
  | .error e => ⟨[], some (.unreadWord e)⟩
  | .ok ws =>
    let listing := if summaryOnly then [] else Dump.listing ws ++ [""]
    ⟨listing ++ (Summary.ofList ws).listing, none⟩

def reply (t : List Char) : String :=
  match Word.read t with
  | .ok w => w.describe
  | .error e => "error: " ++ e.message

def replies (line : List Char) : List String := (tokens line).map reply

/-- The lines of the bytes, each with the line feed that ends it; what follows the last line feed is
a line if there is anything of it. -/
def byteLines : List UInt8 → List (List UInt8)
  | [] => []
  | b :: bs =>
    if b = 10 then [b] :: byteLines bs
    else match byteLines bs with
      | [] => [[b]]
      | line :: rest => (b :: line) :: rest

theorem flatten_byteLines (bs : List UInt8) : (byteLines bs).flatten = bs := by
  induction bs with
  | nil => rfl
  | cons b bs ih =>
    simp only [byteLines]
    split
    · simp [ih]
    · split
      case h_1 h => simp_all
      case h_2 line rest h => simp_all

/-- A line without its end, a line feed that may have a carriage return in front of it. -/
def withoutLineEnd (cs : List Char) : List Char :=
  match cs.reverse with
  | '\n' :: '\r' :: rest => rest.reverse
  | '\n' :: rest => rest.reverse
  | _ => cs

/-- The last line of a session that is given a line which is not text. -/
def brokenLine : String :=
  "Error: Io(Error \x7b kind: InvalidData, message: \"stream did not contain valid UTF-8\" \x7d)"

/-- Replies to the lines in turn, as the editor leaves them, up to the first one that is not text or
that the editor cannot handle. -/
def session (edit : List Char → Option (List Char)) : List (List UInt8) → Report
  | [] => ⟨[], none⟩
  | bytes :: rest =>
    match decodeText? bytes with
    | none => ⟨[brokenLine], none⟩
    | some cs =>
      match edit (withoutLineEnd cs) with
      | none => ⟨[], some .splitCharacter⟩
      | some line =>
        let rest := session edit rest
        ⟨replies line ++ rest.lines, rest.failure⟩

def Command.input : Command → Input
  | .classify _ => .nothing
  | .header _ _ _ => .nothing
  | .dump none _ => .standard
  | .dump (some path) _ => .file path
  | .repl => .standard

/-- The report of a command on the bytes of its input, nothing if they could not be had. Lines of a
session come through the given editor. -/
def Command.reportWith (edit : List Char → Option (List Char)) (bytes : Option (List UInt8)) :
    Command → Report
  | .classify words => CommandLine.classify words
  | .header uid nfields marked => describeHeader uid nfields marked
  | .dump _ summaryOnly =>
    match bytes with
    | none => ⟨[], some .unreadable⟩
    | some bytes =>
      match decodeText? bytes with
      | none => ⟨[], some .notText⟩
      | some text => showDump summaryOnly text
  | .repl => session edit (byteLines (bytes.getD []))

/-- The same with the editor that handles backspaces. -/
def Command.report (bytes : Option (List UInt8)) (c : Command) : Report :=
  c.reportWith applyBackspaces? bytes

def versionLine : String := "tagword 0.1.0"

def helpLines : List String :=
  ["Usage: tagword [-v] classify WORD...",
   "       tagword [-v] header --uid UID [--nfields N] [--marked]",
   "       tagword [-v] dump [--summary] [FILE]",
   "       tagword [-v] repl"]

def Invocation.input : Invocation → Input
  | .command _ c => c.input
  | .version => .nothing
  | .help => .nothing

def Invocation.report (bytes : Option (List UInt8)) : Invocation → Report
  | .command _ c => c.report bytes
  | .version => ⟨[versionLine], none⟩
  | .help => ⟨helpLines, none⟩

namespace Report

def output (r : Report) : String := String.join (r.lines.map (· ++ "\n"))

/-- Zero for success. -/
def exitCode (r : Report) : Nat := (r.failure.map Failure.exitCode).getD 0

end Report

/-- The exit code of a command line that is refused. -/
def misuseCode : Nat := 2

end TaggedHeap.CommandLine
