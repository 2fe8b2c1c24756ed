import TaggedHeap.Main
import TaggedHeap.Memory.Lemmas
import TaggedHeap.Proofs.Arena.Oversized
import TaggedHeap.Proofs.Arena.Separation
import TaggedHeap.Proofs.Client.Transparency
import TaggedHeap.Proofs.CommandLine.Agreement
import TaggedHeap.Proofs.Dump.Histogram
import TaggedHeap.Proofs.Dump.Positions
import TaggedHeap.Proofs.Dump.RoundTrip
import TaggedHeap.Proofs.Graph.Exhaustion
import TaggedHeap.Proofs.Graph.Pairs
import TaggedHeap.Proofs.Heap.Accesses
import TaggedHeap.Proofs.Heap.DoubleWords
import TaggedHeap.Proofs.Heap.Headers
import TaggedHeap.Proofs.Heap.Marking
import TaggedHeap.Proofs.Heap.Recording
import TaggedHeap.Proofs.Word.Numbers
import TaggedHeap.Proofs.Word.Text
import TaggedHeap.Script.Run
import TaggedHeap.Proofs.Heap.Isolation
