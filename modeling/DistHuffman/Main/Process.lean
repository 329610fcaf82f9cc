/-
  `main.c`: `processData` of the controller, piece by piece.

  `beginData` is the part before the loop, `collect` and `dispatch` are the two halves of what the
  loop does with one worker, for the bytes that the worker answers. Transfers are taken to move the
  bytes they are asked for. With the FRAM they do (`DistHuffman.Main.Memory`); what they really do
  with a worker is in `DistHuffman.Slave.Transfer`. A worker's answer is its `out_buffer`: two bytes
  are read at 0, then as many as the second of them says at 2.

  Arithmetic is that of the AVR, where `int` has 16 bits: `input->end - irp` is computed in
  `uint16_t` and `irp` is a `uint8_t`.
-/
import DistHuffman.Slave.Isr

namespace DistHuffman.Main

open DistHuffman.Slave (Buffer)

def blockSize : UInt16 := 128
def i2cReady : UInt8 := 1
def jobBit : UInt8 := 1
def encode : UInt8 := 1 <<< jobBit
def decode : UInt8 := 0 <<< jobBit

/-! ## FRAM -/

/-- The contents of the FRAM. -/
abbrev Fram : Type := UInt16 → UInt8

def Fram.read (f : Fram) (address : UInt16) (size : Nat) : List UInt8 :=
  (List.range size).map fun i => f (address + UInt16.ofNat i)

def Fram.write (f : Fram) (address : UInt16) (bytes : List UInt8) : Fram :=
  fun a => bytes.getD (a - address).toNat (f a)

/-- `file_t` -/
structure File where
  start : UInt16
  end_ : UInt16

/-! ## Ordering the records -/

/-- `block_seq_t` -/
structure BlockSeq where
  start : UInt16
  size : UInt8

/-- The sequence number `sequence_blocks` finds in the header of a record. -/
def recordSeq (header : UInt8) : UInt8 := header >>> 1

/-- `sequence_blocks` from `address` on: the entries of `seq` it writes, in order. -/
def sequenceBlocks (fram : Fram) : Nat → UInt16 → List (UInt8 × BlockSeq)
  | 0, _ => []
  | n + 1, address =>
      let size := fram (address + 1) >>> 2
      (recordSeq (fram address), ⟨address, size⟩) ::
        sequenceBlocks fram n (address + size.toUInt16 + 2)

/-! ## processData -/

/-- What `processData` works on, and `writes`: its writes to the FRAM so far, newest first. -/
structure Ctl where
  fram : Fram
  input : File
  output : File
  job : UInt8
  blockCount : UInt8
  irp : UInt8
  block : UInt8
  writes : List (UInt16 × List UInt8)

def Ctl.writeFram (c : Ctl) (address : UInt16) (bytes : List UInt8) : Ctl :=
  { c with fram := c.fram.write address bytes, writes := (address, bytes) :: c.writes }

/-- `block_count` in ENCODE mode. The condition of `? 1 : 0` is the whole sum. -/
def encodeBlockCount (input : File) : UInt8 :=
  let length := input.end_ - input.start
  if length / blockSize + length % blockSize ≠ 0 then 1 else 0

/-- `processData` up to its loop. What `sequence_blocks` finds in DECODE mode is not used again. -/
def beginData (fram : Fram) (input output : File) : Ctl :=
  let irp := (input.start + 1).toUInt8
  if fram input.start = 42 then
    { fram := fram.write output.start [35]
      input := input
      output := { output with end_ := output.end_ + 1 }
      job := encode
      blockCount := encodeBlockCount input
      irp := irp
      block := 0
      writes := [(output.start, [35])] }
  else
    { fram := fram
      input := input
      output := output
      job := decode
      blockCount := fram (input.end_ - 1)
      irp := irp
      block := 0
      writes := [] }

/-- What a worker has to send: as many bytes as the second byte says. -/
def replyPayload (out : Buffer) : List UInt8 :=
  (List.range (out 1).toNat).map fun i => out (2 + UInt8.ofNat i)

/-- The record of a reply: header, size and payload. -/
def replyBytes (out : Buffer) : List UInt8 := out 0 :: out 1 :: replyPayload out

/-- Store the reply and, behind the last one expected, the number of blocks. -/
def collect (c : Ctl) (out : Buffer) : Ctl :=
  let c := c.writeFram c.output.end_ (replyBytes out)
  let c := { c with
    output := { c.output with end_ := c.output.end_ + ((out 1).toUInt16 + 1) }
    block := c.block + 1 }
  if c.block = c.blockCount then c.writeFram c.output.end_ [c.block] else c

/-- A job as it is sent: `block` is the number the controller means, the rest is `out_buffer`. -/
structure Job where
  block : UInt8
  header : UInt8
  size : UInt8
  payload : List UInt8
  deriving DecidableEq

def Job.message (j : Job) : List UInt8 := j.header :: j.size :: j.payload

/-- Pack a job for a worker that is ready and move the read pointer. -/
def dispatch (c : Ctl) : Ctl × Job :=
  let header := (c.block <<< 1) ||| c.job
  if c.job = encode then
    let left := c.input.end_ - c.irp.toUInt16
    let bytesRead := (if left > blockSize then blockSize else left).toUInt8
    ({ c with irp := c.irp + bytesRead },
      ⟨c.block, header, bytesRead, c.fram.read c.irp.toUInt16 bytesRead.toNat⟩)
  else
    let size := c.fram c.irp.toUInt16
    let irp := c.irp + 1
    ({ c with irp := irp + size },
      ⟨c.block, header, size, c.fram.read irp.toUInt16 size.toNat⟩)

/-- The worker has data to send. -/
def HasReply (out : Buffer) : Prop := out 1 ≠ 0

/-- The worker takes a job. -/
def IsReady (out : Buffer) : Prop := out 0 &&& i2cReady ≠ 0

instance (out : Buffer) : Decidable (HasReply out) := inferInstanceAs (Decidable (_ ≠ _))

instance (out : Buffer) : Decidable (IsReady out) := inferInstanceAs (Decidable (_ ≠ _))

end DistHuffman.Main
