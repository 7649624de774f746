import EvalynOS.Libc.Strings
import EvalynOS.Drivers.DrX

/-! The debug stub, drivers/dbgstub/dbgstub.c: a receiver that takes one byte at a time from the
serial line, the commands of the remote protocol, and the answers. -/
namespace EvalynOS.Dbgstub
open Strings DrX

def packetBufferSize : Nat := 4096
def bufferSize : Nat := packetBufferSize + 16

/- Where the model stops: a panic of the kernel, or an index behind the end of a buffer. -/
inductive Fault where
  | panic
  | overflow
  | overread
  deriving DecidableEq

def orOverread {α : Type} : Option α → Except Fault α
  | none => .error .overread
  | some a => .ok a

/- One of the three buffers of dbgstub_init. -/
structure Buffer where
  bytes : List UInt8
  size : bytes.length = bufferSize

def Buffer.zero : Buffer := ⟨List.replicate bufferSize 0, List.length_replicate⟩

def Buffer.read (b : Buffer) (i : Nat) : Except Fault UInt8 := orOverread b.bytes[i]?

def Buffer.put (b : Buffer) (i : Nat) (c : UInt8) : Buffer :=
  ⟨b.bytes.set i c, (List.length_set ..).trans b.size⟩

def Buffer.write (b : Buffer) (i : Nat) (c : UInt8) : Except Fault Buffer :=
  if i < bufferSize then .ok (b.put i c) else .error .overflow

def Buffer.writeAll (b : Buffer) (i : Nat) : List UInt8 → Except Fault Buffer
  | [] => .ok b
  | c :: rest => do
    let b ← b.write i c
    b.writeAll (i + 1) rest

/- struct interrupt_frame. -/
inductive Register where
  | r15 | r14 | r13 | r12 | r11 | r10 | r9 | r8
  | rbp | rdi | rsi | rdx | rcx | rbx | rax
  | vector | error
  | ip | cs | flags | rsp | ss
  deriving DecidableEq

abbrev Frame := Register → BitVec 64

def Frame.set (frame : Frame) (reg : Register) (value : BitVec 64) : Frame := fun r =>
  if r = reg then value else frame r

/- What is debugged. A byte that cannot be read or written makes the access fail. -/
structure Target where
  lastFrame : Frame
  memory : BitVec 64 → Option UInt8
  writable : BitVec 64 → Bool
  debug : Debug
  paused : Bool
  continued : Bool

def safeReadByte (t : Target) (addr : BitVec 64) : Option UInt8 := t.memory addr

def safeWriteByte (t : Target) (addr : BitVec 64) (value : UInt8) : Option Target :=
  if t.writable addr then some { t with memory := fun a => if a = addr then some value else t.memory a }
  else none

structure Stub where
  target : Target
  recv : Buffer
  sendBuffer : Buffer
  packetSend : Buffer
  index : Nat
  middle : Bool
  ended : Bool
  endCount : Nat
  /- Flags of the frame that dbgstub_rx was called with. -/
  frameFlags : BitVec 64
  /- What went out on the serial line. -/
  output : List UInt8

def Stub.serialSend (s : Stub) (b : UInt8) : Stub := { s with output := s.output ++ [b] }

def hexOf (n : Nat) : UInt8 := (text "0123456789abcdef").getD n 0

/-! dbgstub_send. -/

/- What the argument of dbgstub_send points to. -/
inductive Source where
  | text (bytes : List UInt8)
  | sendBuffer
  | packetSend

def Stub.byteAt (s : Stub) (k : Nat) : Source → Option UInt8
  | .text bytes => (bytes ++ [0])[k]?
  | .sendBuffer => s.sendBuffer.bytes[k]?
  | .packetSend => s.packetSend.bytes[k]?

def Stub.emit (s : Stub) (i : Nat) (b : UInt8) : Except Fault Stub := do
  let buffer ← s.packetSend.write i b
  .ok { s with packetSend := buffer, output := s.output ++ [b] }

/- The loop has read `k` bytes and is at i = k + 1. The buffer is full before the fuel is used up. -/
def sendLoop (source : Source) : Nat → Nat → UInt8 → Stub → Except Fault (Nat × UInt8 × Stub)
  | 0, _, _, _ => .error .overflow
  | fuel + 1, k, checksum, s => do
    let b ← orOverread (s.byteAt k source)
    if b = 0 then .ok (k, checksum, s)
    else
      let s ← s.emit (k + 1) b
      sendLoop source fuel (k + 1) (checksum + b) s

def dbgstubSend (s : Stub) (source : Source) : Except Fault Stub := do
  let s ← s.emit 0 '$'.toUInt8
  let (k, checksum, s) ← sendLoop source bufferSize 0 0 s
  let s ← s.emit (k + 1) '#'.toUInt8
  let s ← s.emit (k + 2) (hexOf (checksum.toNat / 16))
  let s ← s.emit (k + 3) (hexOf (checksum.toNat % 16))
  let buffer ← s.packetSend.write (k + 4) 0
  .ok { s with packetSend := buffer }

def Stub.reply (s : Stub) (answer : String) : Except Fault Stub := dbgstubSend s (.text (text answer))

/-! dbgstub_validate_packet. -/

def checksumLoop : List UInt8 → UInt8 → Nat → Option (UInt8 × Nat)
  | [], _, _ => none
  | b :: rest, sum, i => if b = '#'.toUInt8 then some (sum, i) else checksumLoop rest (sum + b) (i + 1)

def dbgstubValidatePacket (s : Stub) : Except Fault (Bool × Stub) := do
  let first ← s.recv.read 0
  if first ≠ '$'.toUInt8 ∧ first ≠ '%'.toUInt8 then .ok (false, s.serialSend '-'.toUInt8)
  else
    let (calculated, i) ← orOverread (checksumLoop (s.recv.bytes.drop 1) 0 1)
    let c0 ← s.recv.read (i + 1)
    let c1 ← s.recv.read (i + 2)
    let checksum ← orOverread (strtoll [c0, c1, 0] 16)
    if (calculated.toNat : Int) = checksum % 2 ^ 64 then .ok (true, s.serialSend '+'.toUInt8)
    else .ok (false, s.serialSend '-'.toUInt8)

/-! Registers. -/

/- The lower `n` bytes in the other order. -/
def bswap : Nat → Nat → Nat
  | 0, _ => 0
  | n + 1, v => v % 256 * 256 ^ n + bswap n (v / 256)

def swapRegister (width value : Nat) : Nat := if width = 16 then bswap 8 value else bswap 4 (value % 2 ^ 32)

def packedRegisters : List (Register × Nat) :=
  [(.rax, 16), (.rbx, 16), (.rcx, 16), (.rdx, 16), (.rsi, 16), (.rdi, 16), (.rbp, 16), (.rsp, 16),
    (.r8, 16), (.r9, 16), (.r10, 16), (.r11, 16), (.r12, 16), (.r13, 16), (.r14, 16), (.r15, 16),
    (.ip, 16), (.flags, 8), (.cs, 8), (.ss, 8)]

/- The loop of PACK_REG, from the last digit to the first. -/
def hexField : Nat → Nat → List UInt8 → List UInt8
  | 0, _, digits => digits
  | i + 1, v, digits => hexField i (v / 16) (hexOf (v % 16) :: digits)

def packReg (frame : Frame) (field : Register × Nat) : List UInt8 :=
  hexField field.2 (swapRegister field.2 (frame field.1).toNat) []

def unpackRegs (recv : Buffer) : List (Register × Nat) → Nat → Frame → Except Fault Frame
  | [], _, frame => .ok frame
  | (reg, width) :: rest, ptr, frame => do
    if bufferSize < ptr + width then .error .overread
    else
      let val ← orOverread (strtoull ((recv.bytes.drop ptr).take width ++ [0]) 16)
      unpackRegs recv rest (ptr + width) (frame.set reg (BitVec.ofNat 64 (swapRegister width val)))

def readRegisters (s : Stub) : Except Fault Stub := do
  let buffer ← s.sendBuffer.writeAll 0 (packedRegisters.flatMap (packReg s.target.lastFrame) ++ [0])
  dbgstubSend { s with sendBuffer := buffer } .sendBuffer

def writeRegisters (s : Stub) : Except Fault Stub := do
  let frame ← unpackRegs s.recv packedRegisters 2 s.target.lastFrame
  Stub.reply { s with target := { s.target with lastFrame := frame } } "OK"

/-! Memory. -/

/- `false`: a byte could not be read. -/
def readBytes (t : Target) (addr : Nat) : Nat → Nat → Buffer → Except Fault (Bool × Buffer)
  | 0, _, b => .ok (true, b)
  | n + 1, k, b =>
    match safeReadByte t (BitVec.ofNat 64 (addr + k)) with
    | none => .ok (false, b)
    | some byte => do
      let b ← b.write (k * 2) (hexOf (byte.toNat / 16))
      let b ← b.write (k * 2 + 1) (hexOf (byte.toNat % 16))
      readBytes t addr n (k + 1) b

def sendMemory (s : Stub) (addr length : Nat) : Except Fault Stub :=
  if length = 0 then s.reply "E01"
  else do
    let (done, buffer) ← readBytes s.target addr length 0 s.sendBuffer
    let s := { s with sendBuffer := buffer }
    if done then
      let buffer ← s.sendBuffer.write (length * 2 % 2 ^ 64) 0
      dbgstubSend { s with sendBuffer := buffer } .sendBuffer
    else s.reply "E02"

def readMemory (s : Stub) : Except Fault Stub := do
  match ← orOverread (strchr ','.toUInt8 (s.recv.bytes.drop 2)) with
  | none => s.reply "E00"
  | some comma =>
    let recv ← s.recv.write (2 + comma) 0
    let addr ← orOverread (strtoull (recv.bytes.drop 2) 16)
    let length ← orOverread (strtoull (recv.bytes.drop (2 + comma + 1)) 16)
    sendMemory { s with recv := recv } addr length

/- `false`: a byte could not be written. -/
def writeBytes (recv : Buffer) (addr data : Nat) : Nat → Nat → Target → Except Fault (Bool × Target)
  | 0, _, t => .ok (true, t)
  | n + 1, k, t => do
    let high ← recv.read (data + k * 2)
    let low ← recv.read (data + k * 2 + 1)
    let value ← orOverread (strtoull [high, low, 0] 16)
    match safeWriteByte t (BitVec.ofNat 64 (addr + k)) (UInt8.ofNat value) with
    | none => .ok (false, t)
    | some t => writeBytes recv addr data n (k + 1) t

def storeMemory (s : Stub) (addr length data : Nat) : Except Fault Stub :=
  if length = 0 then s.reply "E01"
  else do
    let available ← orOverread (strlen (s.recv.bytes.drop data))
    if available < length * 2 % 2 ^ 64 then s.reply "E01"
    else
      let (done, target) ← writeBytes s.recv addr data length 0 s.target
      let s := { s with target := target }
      if done then s.reply "OK" else s.reply "E03"

def writeMemory (s : Stub) : Except Fault Stub := do
  let comma ← orOverread (strchr ','.toUInt8 (s.recv.bytes.drop 2))
  let colon ← orOverread (strchr ':'.toUInt8 (s.recv.bytes.drop 2))
  match comma, colon with
  | some comma, some colon =>
    if colon < comma then s.reply "E00"
    else
      let recv ← s.recv.write (2 + comma) 0
      let recv ← recv.write (2 + colon) 0
      let addr ← orOverread (strtoull (recv.bytes.drop 2) 16)
      let length ← orOverread (strtoull (recv.bytes.drop (2 + comma + 1)) 16)
      storeMemory { s with recv := recv } addr length (2 + colon + 1)
  | _, _ => s.reply "E00"

/-! Breakpoints. -/

/- A command on the address at offset 4 of the packet. -/
def changeBreakpoint (change : Address → Debug → Bool × Debug) (refusal : String) (s : Stub) : Except Fault Stub := do
  let addr ← orOverread (strtoull (s.recv.bytes.drop 4) 16)
  let (done, debug) := change (BitVec.ofNat 64 addr) s.target.debug
  let s := { s with target := { s.target with debug := debug } }
  if done then s.reply "OK" else s.reply refusal

def removeBreakpoint : Stub → Except Fault Stub := changeBreakpoint drxFreeBp "E.INVALID_BREAKPOINT"

def insertBreakpoint : Stub → Except Fault Stub := changeBreakpoint drxAllocBp "E.OUT_OF_HARDWARE_BREAKPOINTS"

def resumeTarget (s : Stub) : Stub :=
  { s with target := { s.target with
      lastFrame := s.target.lastFrame.set .flags (s.target.lastFrame .flags &&& ~~~0x100#64)
      paused := false
      continued := true } }

def stepTarget (s : Stub) : Stub := { s with target := { s.target with paused := true, continued := true } }

/-! dbgstub_process_packet. -/

def Stub.isCommand (s : Stub) (name : String) : Bool :=
  strncmp (text name ++ [0]) s.recv.bytes (text name).length = some 0

/- The tests of dbgstub_process_packet, in their order. -/
def commands : List (String × (Stub → Except Fault Stub)) :=
  [("$qSupported", fun s => s.reply "PacketSize=4000;hwbreak+;swbreak-;multiprocess-;multi-wp-addr-"),
    ("$qAttached", fun s => s.reply "1"),
    ("$?", fun s => s.reply "S05"),
    ("$g", readRegisters),
    ("$G", writeRegisters),
    ("$m", readMemory),
    ("$M", writeMemory),
    ("$z1", removeBreakpoint),
    ("$Z1", insertBreakpoint),
    ("$c", fun s => .ok (resumeTarget s)),
    ("$C", fun s => .ok (resumeTarget s)),
    ("$s", fun s => .ok (stepTarget s))]

def runCommand (s : Stub) : Except Fault Stub :=
  match commands.find? (fun command => s.isCommand command.1) with
  | some (_, run) => run s
  | none => s.reply ""

def dbgstubProcessPacket (s : Stub) : Except Fault Stub := do
  let (status, s) ← dbgstubValidatePacket s
  if status then runCommand s else .ok s

/-! dbgstub_rx. -/

def Stub.startPacket (s : Stub) : Stub := { s with ended := false, middle := true, index := 0 }

/- The switch; `true`: it breaks, and the byte is stored. -/
def rxSwitch (s : Stub) (c : UInt8) : Except Fault (Bool × Stub) :=
  if c = 3 then
    if s.middle then .ok (false, s)
    else .ok (false, { s with
      frameFlags := s.frameFlags ||| 0x100#64
      target := { s.target with paused := true, continued := false } })
  else if c = '+'.toUInt8 then .ok (s.middle, s)
  else if c = '-'.toUInt8 then
    if s.middle then .ok (true, s)
    else do
      let s ← dbgstubSend s .packetSend
      .ok (false, s)
  else if c = '}'.toUInt8 then .error .panic
  else if c = '$'.toUInt8 then .ok (true, s.startPacket)
  else if c = '%'.toUInt8 then .ok (true, if s.middle then s else s.startPacket)
  else if c = '#'.toUInt8 then .ok (true, { s with ended := true, middle := false, endCount := 0 })
  else .ok (true, s)

/- The rest of dbgstub_rx; `true`: it calls dbgstub_process_packet. -/
def rxStore (s : Stub) (c : UInt8) : Except Fault (Bool × Stub) := do
  let recv ← s.recv.write s.index c
  let index := s.index + 1
  let endCount := if s.ended then s.endCount + 1 else s.endCount
  if endCount = 3 then
    let recv ← recv.write (index + 1) 0
    .ok (true, { s with recv := recv, endCount := 0, index := 0, middle := false, ended := false })
  else .ok (false, { s with recv := recv, index := index, endCount := endCount })

def rxByte (s : Stub) (c : UInt8) : Except Fault (Bool × Stub) :=
  if s.index = packetBufferSize then .error .panic
  else do
    let (store, s) ← rxSwitch s c
    if store then rxStore s c else .ok (false, s)

def dbgstubRx (s : Stub) (c : UInt8) : Except Fault Stub := do
  let (complete, s) ← rxByte s c
  if complete then dbgstubProcessPacket s else .ok s

def feed (s : Stub) (bytes : List UInt8) : Except Fault Stub := bytes.foldlM dbgstubRx s

/- dbgstub_exception up to its loop; `triggered` is the answer of drx_cnc_bp. -/
def dbgstubException (s : Stub) (frame : Frame) (triggered : Bool) : Except Fault Stub :=
  if triggered then
    let frame := frame.set .flags (frame .flags ||| 0x10000#64 ||| 0x100#64)
    Stub.reply { s with target := { s.target with lastFrame := frame, paused := true, continued := false } } "S05"
  else Stub.reply { s with target := { s.target with lastFrame := frame } } "S05"

def dbgstubInit (memory : BitVec 64 → Option UInt8) (writable : BitVec 64 → Bool) : Stub where
  target := ⟨fun _ => 0, memory, writable, initial, true, false⟩
  recv := Buffer.zero
  sendBuffer := Buffer.zero
  packetSend := Buffer.zero
  index := 0
  middle := false
  ended := false
  endCount := 0
  frameFlags := 0
  output := []

/-- The stub between two calls. `leave` is the end of the loop of dbgstub_exception. What is
debugged changes its memory, and is interrupted anywhere. -/
inductive Reachable : Stub → Prop where
  | init (memory : BitVec 64 → Option UInt8) (writable : BitVec 64 → Bool) : Reachable (dbgstubInit memory writable)
  | rx {s s' : Stub} {c : UInt8} : Reachable s → dbgstubRx s c = .ok s' → Reachable s'
  | exception {s s' : Stub} {frame : Frame} {triggered : Bool} : Reachable s →
      dbgstubException s frame triggered = .ok s' → Reachable s'
  | leave {s : Stub} : Reachable s → s.target.paused = true → s.target.continued = true →
      Reachable { s with target := { s.target with continued := false } }
  | elsewhere {s : Stub} (memory : BitVec 64 → Option UInt8) (writable : BitVec 64 → Bool)
      (flags : BitVec 64) : Reachable s →
      Reachable { s with target := { s.target with memory := memory, writable := writable }, frameFlags := flags }

end EvalynOS.Dbgstub
