/-
  `i2c_slave.c`: the worker. `isr` is `ISR(TWI_vect)` for a value of the status register `TWSR`;
  `processJob` is its job part, which runs the codec on whatever `in_buffer` holds after every
  received byte.

  The codec may leave its defined behaviour (`Fault`): a failed assertion ends in `abort()`, which
  turns the interrupts off, and after the other faults the memory of the worker is not determined.
  Either way the worker is lost, and `isr` returns the fault in place of its next state.

  `workerBus` is the bus with this one worker on it, under the assumption that the TWI hardware
  acknowledges every byte and raises one event for each: `TW_SR_SLA_ACK` or `TW_ST_SLA_ACK` for its
  address, `TW_SR_DATA_ACK` for a byte received, `TW_ST_DATA_ACK` for a byte sent and acknowledged.
  `TWDR` holds the last byte received, the address byte included, or the byte to send.
-/
import DistHuffman.Master.Transfer
import DistHuffman.Codec.Format
import Mathlib.Logic.Function.Basic

namespace DistHuffman.Slave

open DistHuffman.Codec DistHuffman.Master

/-- A 256-byte buffer, indexed like `in_buffer` and `out_buffer` by a `uint8_t`. -/
abbrev Buffer : Type := UInt8 → UInt8

/-- The bytes of a buffer in order. -/
def Buffer.bytes (b : Buffer) : List UInt8 := (List.range 256).map fun i => b (UInt8.ofNat i)

def i2cReady : UInt8 := 1
def jobBit : UInt8 := 1
def encode : UInt8 := 1 <<< jobBit

def twSrSlaAck : UInt8 := 0x60
def twSrDataAck : UInt8 := 0x80
def twStSlaAck : UInt8 := 0xA8
def twStDataAck : UInt8 := 0xB8

def twint : UInt8 := (1 : UInt8) <<< 7
def twea : UInt8 := (1 : UInt8) <<< 6
def twen : UInt8 := (1 : UInt8) <<< 2
def twie : UInt8 := (1 : UInt8) <<< 0

/-- `buffer_address`, the two buffers and the TWI registers of a worker. -/
structure Worker where
  bufferAddress : UInt8
  inBuffer : Buffer
  outBuffer : Buffer
  twdr : UInt8
  twar : UInt8
  twcr : UInt8

/-! ## Job processing -/

/-- `strlen`; running past the end of the buffer is a fault. -/
def strlen (s : List UInt8) : Except Fault Nat :=
  if (0 : UInt8) ∈ s then .ok (s.takeWhile (· ≠ 0)).length else .error .bounds

/-- `in_buffer[0] >> 2`: without status and job bits. -/
def seqNum (status : UInt8) : UInt8 := status >>> 2

/-- The job bit of a header. -/
def jobOf (status : UInt8) : UInt8 := (1 <<< jobBit) &&& status

/-- The header of the reply: sequence number, job code and ready flag. -/
def replyHeader (status : UInt8) : UInt8 := (seqNum status <<< 2) ||| jobOf status ||| i2cReady

/-- `out_buffer[2..]` after the codec ran on `in_buffer[2..]`, from a cleared buffer. -/
def runCodec (inBuffer : Buffer) : Except Fault (List UInt8) :=
  let size := inBuffer 1
  if encode = jobOf (inBuffer 0) &&& encode then
    if 2 + size.toNat ≤ 256 then
      huffmanCompress ((inBuffer.bytes.drop 2).take size.toNat) (List.replicate 254 0)
    else .error .bounds
  else (huffmanInflate (inBuffer.bytes.drop 2) size.toUInt16 (List.replicate 254 0)).map Prod.fst

def processJob (inBuffer : Buffer) : Except Fault Buffer := do
  let out ← runCodec inBuffer
  let len ← strlen out
  return fun i => (replyHeader (inBuffer 0) :: UInt8.ofNat len :: out).getD i.toNat 0

/-! ## Interrupt handler -/

/-- The receive branch, up to the job: the first byte after the address is the buffer address, the
    others are stored. -/
def receive (w : Worker) : Worker :=
  let data := w.twdr
  if 0xFF = w.bufferAddress then
    { w with bufferAddress := data, twcr := w.twcr ||| (twie ||| twint ||| twea ||| twen) }
  else
    let w := { w with
      inBuffer := Function.update w.inBuffer w.bufferAddress data
      bufferAddress := w.bufferAddress + 1 }
    if w.bufferAddress < 0xFF then
      { w with twcr := w.twcr ||| (twie ||| twint ||| twea ||| twen) }
    else
      { w with twcr := (w.twcr &&& ~~~twea) ||| (twie ||| twint ||| twen) }

/-- The transmit branch: `TWDR` is loaded from `out_buffer`. -/
def transmit (w : Worker) : Worker :=
  let address := if w.bufferAddress = 0xFF then w.twdr else w.bufferAddress
  let w := { w with twdr := w.outBuffer address, bufferAddress := address + 1 }
  if w.bufferAddress < 0xFF then
    { w with twcr := w.twcr ||| (twie ||| twint ||| twea ||| twen) }
  else
    { w with twcr := (w.twcr &&& ~~~twea) ||| (twea ||| twen ||| twie) }

/-- `ISR(TWI_vect)` -/
def isr (w : Worker) (twsr : UInt8) : Except Fault Worker :=
  if twSrSlaAck = twsr &&& 0xF8 then
    .ok { w with bufferAddress := 0xFF, twcr := w.twcr ||| (twie ||| twint ||| twea ||| twen) }
  else if twSrDataAck = twsr &&& 0xF8 then do
    let w := receive w
    let out ← processJob w.inBuffer
    return { w with outBuffer := out }
  else if twStDataAck = twsr &&& 0xF8 then .ok (transmit w)
  else .ok { w with twcr := w.twcr ||| (twea ||| twen ||| twie) }

/-- What the worker puts on the bus when a byte is read from it. -/
def sent : Except Fault Worker → UInt8
  | .ok w => w.twdr
  | .error _ => 0

/-- The bus with one worker. Bit 0 of an address byte is the direction, the others are compared
    with `TWAR`. A worker that is lost answers nothing. -/
def workerBus : Bus (Except Fault Worker) where
  start address s :=
    match s with
    | .ok w =>
        if address &&& 0xFE = w.twar &&& 0xFE then
          (0, isr { w with twdr := address }
            (if address &&& 1 = 0 then twSrSlaAck else twStSlaAck))
        else (1, s)
    | .error _ => (1, s)
  write b s := (0, s >>= fun w => isr { w with twdr := b } twSrDataAck)
  readAck s := (sent s, s >>= fun w => isr w twStDataAck)
  readNack s := (sent s, s)
  stop s := s

end DistHuffman.Slave
