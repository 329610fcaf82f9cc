import DistHuffman.Lib.Bits
import DistHuffman.Lib.CodeTree
import DistHuffman.Lib.PrefixCode
import DistHuffman.Lib.Merge
import DistHuffman.Lib.Optimal
import DistHuffman.Lib.Budget
import DistHuffman.Lib.Overlay
import DistHuffman.Lib.Runs
import DistHuffman.Lib.Chain
import DistHuffman.Lib.Outcome
import DistHuffman.Codec.Basic
import DistHuffman.Codec.Format
import DistHuffman.Codec.Heap
import DistHuffman.Link.Build
import DistHuffman.Link.Pools
import DistHuffman.Link.Construct
import DistHuffman.Link.Text
import DistHuffman.Link.Shape
import DistHuffman.Link.Optimal
import DistHuffman.Link.Order
import DistHuffman.Link.Faults
import DistHuffman.Link.Stream
import DistHuffman.Link.RoundTrip
import DistHuffman.Link.Table
import DistHuffman.Link.Limits
import DistHuffman.Link.Size
import DistHuffman.Link.Walk
import DistHuffman.Link.Pointers
import DistHuffman.Link.Program
import DistHuffman.Link.Inside
import DistHuffman.Link.Residue
import DistHuffman.Master.Transfer
import DistHuffman.Master.Wait
import DistHuffman.Master.Release
import DistHuffman.Slave.Isr
import DistHuffman.Slave.Reply
import DistHuffman.Slave.Transfer
import DistHuffman.Slave.Startup
import DistHuffman.Slave.Assertion
import DistHuffman.Slave.Fit
import DistHuffman.Main.Process
import DistHuffman.Main.System
import DistHuffman.Main.Sequence
import DistHuffman.Main.Dispatch
import DistHuffman.Main.Collect
import DistHuffman.Main.Records
import DistHuffman.Main.Blocks
import DistHuffman.Main.Count
import DistHuffman.Main.Memory
import DistHuffman.Main.Addressing
import DistHuffman.Main.Files
import DistHuffman.Main.Reads
import DistHuffman.Main.Extents
import DistHuffman.Main.Append
import DistHuffman.Main.Print
import DistHuffman.Main.Attempts
import DistHuffman.Main.Panel
import DistHuffman.Main.Control
import DistHuffman.Main.Wire
import DistHuffman.Main.Traffic
import DistHuffman.Main.Simulation
import DistHuffman.Main.Console
