/-
  `i2c_master.c`: the transfers of the controller, over an abstract bus.

  A `Bus` says what the five primitives `i2c_start`, `i2c_write`, `i2c_read_ack`, `i2c_read_nack`
  and `i2c_stop` do to a state of type `σ` (the devices on the bus). The transfers are written once
  over it; a model of a device is an instance. As in the source, 0 is success and 1 is failure.
-/
import Mathlib.Data.List.Basic

namespace DistHuffman.Master

/-- The primitives of `i2c_master.c` on devices of state `σ`. -/
structure Bus (σ : Type) where
  start : UInt8 → σ → UInt8 × σ
  write : UInt8 → σ → UInt8 × σ
  readAck : σ → UInt8 × σ
  readNack : σ → UInt8 × σ
  stop : σ → σ

variable {σ : Type} (bus : Bus σ)

/-- `i2c_write_start`: address the device for writing and send the two address bytes, high byte
    first. What the device answers to them is not looked at. -/
def i2cWriteStart (devaddr : UInt8) (offsetAddr : UInt16) (s : σ) : UInt8 × σ :=
  let r := bus.start ((devaddr <<< 1) ||| 0) s
  if r.1 ≠ 0 then (1, r.2)
  else (0, (bus.write offsetAddr.toUInt8 (bus.write (offsetAddr >>> 8).toUInt8 r.2).2).2)

/-- The data loop of `i2c_writeReg`; it stops at the first byte that is not acknowledged. -/
def writeLoop : List UInt8 → σ → UInt8 × σ
  | [], s => (0, s)
  | b :: data, s =>
      let r := bus.write b s
      if r.1 ≠ 0 then (1, r.2) else writeLoop data r.2

/-- `i2c_writeReg(devaddr, offset_addr, data, length)`. -/
def i2cWriteReg (devaddr : UInt8) (offsetAddr : UInt16) (data : List UInt8) (s : σ) : UInt8 × σ :=
  let r := i2cWriteStart bus devaddr offsetAddr s
  if r.1 ≠ 0 then (1, r.2)
  else
    let d := writeLoop bus data r.2
    if d.1 ≠ 0 then (1, d.2) else (0, bus.stop d.2)

/-- `i2c_transmit(address, data, length)`. -/
def i2cTransmit (address : UInt8) (data : List UInt8) (s : σ) : UInt8 × σ :=
  let r := bus.start (address ||| 0) s
  if r.1 ≠ 0 then (1, r.2)
  else
    let d := writeLoop bus data r.2
    if d.1 ≠ 0 then (1, d.2) else (0, bus.stop d.2)

/-- `n` reads with acknowledge and one without. -/
def readLoop : Nat → σ → List UInt8 × σ
  | 0, s =>
      let r := bus.readNack s
      ([r.1], r.2)
  | n + 1, s =>
      let r := bus.readAck s
      let d := readLoop n r.2
      (r.1 :: d.1, d.2)

/-- `i2c_readReg(devaddr, offset_addr, data, length)`, with the bytes read. `length - 1` is
    computed in 16 bits. -/
def i2cReadReg (devaddr : UInt8) (offsetAddr length : UInt16) (s : σ) :
    UInt8 × List UInt8 × σ :=
  let r := bus.start (devaddr <<< 1) s
  if r.1 ||| 0 ≠ 0 then (1, [], r.2)
  else
    let s := (bus.write offsetAddr.toUInt8 (bus.write (offsetAddr >>> 8).toUInt8 r.2).2).2
    let r := bus.start ((devaddr <<< 1) ||| 1) s
    if r.1 ≠ 0 then (1, [], r.2)
    else
      let d := readLoop bus (length - 1).toNat r.2
      (0, d.1, bus.stop d.2)

/-- `i2c_receive(address, data, length)`, with the bytes read. -/
def i2cReceive (address : UInt8) (length : UInt16) (s : σ) : UInt8 × List UInt8 × σ :=
  let r := bus.start (address ||| 1) s
  if r.1 ≠ 0 then (1, [], r.2)
  else
    let d := readLoop bus (length - 1).toNat r.2
    (0, d.1, bus.stop d.2)

end DistHuffman.Master
