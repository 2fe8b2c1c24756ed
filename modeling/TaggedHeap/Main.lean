import TaggedHeap.CommandLine.Report

/-!
# The program

Fetches the bytes that the command line asks for, prints the report and exits with its code.
-/

namespace TaggedHeap

open CommandLine

/-- All the bytes that a stream still has. -/
partial def drain (stream : IO.FS.Stream) (read : ByteArray) : IO ByteArray := do
  let more ← stream.read 65536
  if more.isEmpty then return read else drain stream (read ++ more)

/-- The bytes of an input; nothing for a file that cannot be read. -/
def fetch : Input → IO (Option (List UInt8))
  | .nothing => return some []
  | .standard => return some (← drain (← IO.getStdin) .empty).toList
  | .file path => do
    try return some (← IO.FS.readBinFile (String.ofList path)).toList
    catch _ => return none

end TaggedHeap

open TaggedHeap CommandLine in
def main (args : List String) : IO UInt32 := do
  match CommandLine.read (args.map String.toList) with
  | .error m =>
    IO.eprintln ("error: " ++ m.message)
    return misuseCode.toUInt32
  | .ok invocation =>
    let report := invocation.report (← fetch invocation.input)
    IO.print report.output
    if let some f := report.failure then IO.eprintln ("Error: " ++ f.message)
    return report.exitCode.toUInt32
