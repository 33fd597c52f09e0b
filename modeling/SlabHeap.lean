import SlabHeap.Mutator.Handle
import SlabHeap.Mutator.Batch
import SlabHeap.Proofs.Action
import SlabHeap.Proofs.Alike
import SlabHeap.Proofs.Word.Alignment
import SlabHeap.Proofs.Block.Address
import SlabHeap.Proofs.Block.Slot
import SlabHeap.Proofs.Block.Bitmap
import SlabHeap.Proofs.Block.Counting
import SlabHeap.Proofs.Block.Search
import SlabHeap.Proofs.Block.Service
import SlabHeap.Proofs.Memory.Links
import SlabHeap.Proofs.Memory.Sequences
import SlabHeap.Proofs.Memory.Slicing
import SlabHeap.Proofs.Memory.Turns
import SlabHeap.Proofs.Memory.Foreign
import SlabHeap.Proofs.Heap.Sound
import SlabHeap.Proofs.Heap.Cache
import SlabHeap.Proofs.Heap.Draining
import SlabHeap.Proofs.Heap.Drawing
import SlabHeap.Proofs.Heap.Sweep
import SlabHeap.Proofs.Heap.Fullest
import SlabHeap.Proofs.Heap.Object
import SlabHeap.Proofs.Heap.Reach
import SlabHeap.Proofs.Heap.Marking
import SlabHeap.Proofs.Heap.Worklist
import SlabHeap.Proofs.Heap.Collection
import SlabHeap.Proofs.Heap.Supply
import SlabHeap.Proofs.Heap.Allocation
import SlabHeap.Proofs.Heap.Stages
import SlabHeap.Proofs.Heap.Takeover
import SlabHeap.Proofs.Heap.Rewriting
import SlabHeap.Proofs.Heap.Words
import SlabHeap.Proofs.Heap.Growth
import SlabHeap.Proofs.Heap.Giving
import SlabHeap.Proofs.Heap.Likeness
import SlabHeap.Proofs.Heap.Isolation
import SlabHeap.Proofs.Heap.Remarking
import SlabHeap.Proofs.Heap.Totals
import SlabHeap.Proofs.Heap.Recollecting
import SlabHeap.Proofs.Heap.Shapes
import SlabHeap.Proofs.Heap.Turns
import SlabHeap.Proofs.Run.Operation
import SlabHeap.Proofs.Run.History
import SlabHeap.Proofs.Run.Stages
import SlabHeap.Proofs.Run.Service
import SlabHeap.Proofs.Run.Conservation
import SlabHeap.Proofs.Run.Collection
import SlabHeap.Proofs.Run.Sweep
import SlabHeap.Proofs.Run.Indirections
import SlabHeap.Proofs.Run.Marks
import SlabHeap.Proofs.Run.Live
import SlabHeap.Proofs.Run.Course
import SlabHeap.Proofs.Run.Recognition
import SlabHeap.Proofs.Run.Termination
import SlabHeap.Proofs.Run.Safety
import SlabHeap.Proofs.Run.Contents
import SlabHeap.Proofs.Run.Recycling
import SlabHeap.Proofs.Run.Garbage
import SlabHeap.Proofs.Run.Megablocks
import SlabHeap.Proofs.Run.Threshold
import SlabHeap.Proofs.Run.Precision
import SlabHeap.Proofs.Run.Isolation
import SlabHeap.Proofs.Run.Memoization
import SlabHeap.Proofs.Run.CallSites
import SlabHeap.Proofs.Run.Layouts
import SlabHeap.Proofs.Run.Recollection
import SlabHeap.Proofs.Run.Reporting
import SlabHeap.Proofs.Mutator.Frames
import SlabHeap.Proofs.Mutator.Roots
import SlabHeap.Proofs.Run.Drawing
import SlabHeap.Proofs.Run.Lookup
