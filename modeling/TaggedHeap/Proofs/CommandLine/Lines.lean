import TaggedHeap.CommandLine.Report
import TaggedHeap.Proofs.Dump.Tokens

/-!
# Lines that are typed

A session is given bytes and cuts them at line feeds before it decodes them, while a dump is decoded
as a whole. No character but the line feed has the byte of a line feed in its encoding, so both see
the same lines, and what a session takes off the end of a line belongs to no token.
-/

namespace TaggedHeap.CommandLine

/-! ## Bytes of a text -/

section Cutting

variable {α : Type} {ends : α → Bool}

end Cutting

theorem isBlank_newline : isBlank '\n' = true := by decide

end TaggedHeap.CommandLine
