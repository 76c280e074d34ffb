import LightOS.Layout

/-!
# Console input

The receive ring of `kernel/uart.rs`: filled by the UART interrupt, drained by
readers. Indices are taken modulo the ring size, so they are stored as such. The
echo of received bytes goes to the device and is not part of the state.
-/
namespace LightOS

abbrev rxBufSize : ℕ := 256

structure RxRing where
  buf : Vector UInt8 rxBufSize
  /-- Next write. -/
  head : Fin rxBufSize
  /-- Next read. -/
  tail : Fin rxBufSize

namespace RxRing

instance neZeroBufSize : NeZero rxBufSize := ⟨by decide⟩

def empty : RxRing := ⟨Vector.replicate rxBufSize 0, 0, 0⟩

/-- Store one received byte, CR turned into LF; `false` when it is dropped
because only the gap slot is left. -/
def receive (rx : RxRing) (byte : UInt8) : RxRing × Bool :=
  let byte := if byte = 13 then 10 else byte
  let next := rx.head + 1
  if next ≠ rx.tail then ({ rx with buf := rx.buf.set rx.head byte, head := next }, true)
  else (rx, false)

/-- Drain the device FIFO; also whether any byte was accepted. -/
def receiveAll (rx : RxRing) : List UInt8 → RxRing × Bool
  | [] => (rx, false)
  | b :: bs =>
    let (rx, got) := rx.receive b
    let (rx, more) := rx.receiveAll bs
    (rx, got || more)

/-- Pop one byte of console input, if any. -/
def readByte (rx : RxRing) : Option UInt8 × RxRing :=
  if rx.head = rx.tail then (none, rx)
  else (some rx.buf[rx.tail], { rx with tail := rx.tail + 1 })

/-- The drain loop that both `sys_read` and `wake_console_reader` run: up to
`n` bytes, stopping at an empty ring. -/
def readBytes (rx : RxRing) : ℕ → List UInt8 × RxRing
  | 0 => ([], rx)
  | n + 1 =>
    match rx.readByte with
    | (none, rx) => ([], rx)
    | (some b, rx) =>
      let (bs, rx) := rx.readBytes n
      (b :: bs, rx)

end RxRing

end LightOS
