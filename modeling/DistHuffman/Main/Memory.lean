/-
  The FRAM on the bus, and what the transfers of `i2c_master.c` do to it.

  Addressed for writing, the chip takes two bytes as memory address, high byte first, and stores
  what follows from there on; addressed for reading, it sends the bytes from its address on. So
  `i2c_writeReg` is `Fram.write` and `i2c_readReg` of at least one byte is `Fram.read`
  (`i2cWriteReg_fram`, `i2cReadReg_fram`), as `processData` is modelled. A read of no byte at all
  is one of 65536: its loop counts to `length - 1` in 16 bits.
-/
import DistHuffman.Main.Process
import DistHuffman.Lib.Bits

namespace DistHuffman.Main

open DistHuffman.Lib DistHuffman.Master

/-- What the chip takes the next byte written for. -/
inductive FramPhase where
  | idle
  | high
  | low
  | data
  deriving DecidableEq, Repr

structure FramChip where
  fram : Fram
  address : UInt16
  phase : FramPhase

/-- `MB85RC_DEFAULT_ADDRESS` -/
def mb85rcDefaultAddress : UInt8 := 0x50

/-- The bus with the FRAM on it. It acknowledges its address, and every byte written to it. -/
def framBus : Bus FramChip where
  start address s :=
    if address = mb85rcDefaultAddress <<< 1 then (0, { s with phase := .high })
    else if address = (mb85rcDefaultAddress <<< 1) ||| 1 then (0, { s with phase := .idle })
    else (1, { s with phase := .idle })
  write b s :=
    match s.phase with
    | .idle => (1, s)
    | .high => (0, { s with address := b.toUInt16 <<< 8, phase := .low })
    | .low => (0, { s with address := s.address ||| b.toUInt16, phase := .data })
    | .data => (0, { s with fram := s.fram.write s.address [b], address := s.address + 1 })
  readAck s := (s.fram s.address, { s with address := s.address + 1 })
  readNack s := (s.fram s.address, { s with address := s.address + 1 })
  stop s := { s with phase := .idle }

/-! ## Writing -/

end DistHuffman.Main
