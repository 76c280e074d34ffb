import LightOS.Fs

/-!
# NCE slots and their power states

The table behind `/dev/nceN`: the stepwise power state machine and the one-line
descriptor. Slots are emulated, so a transition is a change of state only.
-/
namespace LightOS

inductive PowerState where
  | idle
  | active
  | turbo
  deriving DecidableEq, Repr

namespace PowerState

def asStr : PowerState → String
  | idle => "idle"
  | active => "active"
  | turbo => "turbo"

/-- UTF-8 encodings of the White_Space characters that `trim` removes. -/
def whitespace : List (List UInt8) :=
  [[0x09], [0x0a], [0x0b], [0x0c], [0x0d], [0x20], [0xc2, 0x85], [0xc2, 0xa0],
    [0xe1, 0x9a, 0x80]] ++
  (List.range 11).map (fun i => [0xe2, 0x80, UInt8.ofNat (0x80 + i)]) ++
  [[0xe2, 0x80, 0xa8], [0xe2, 0x80, 0xa9], [0xe2, 0x80, 0xaf], [0xe2, 0x81, 0x9f],
    [0xe3, 0x80, 0x80]]

/-- Remove leading members of `ws`, at most `fuel` of them. -/
def trimStart (ws : List (List UInt8)) : ℕ → List UInt8 → List UInt8
  | 0, s => s
  | fuel + 1, s =>
    match ws.find? (·.isPrefixOf s) with
    | some w => trimStart ws fuel (s.drop w.length)
    | none => s

def trim (s : List UInt8) : List UInt8 :=
  let s := trimStart whitespace s.length s
  (trimStart (whitespace.map List.reverse) s.length s.reverse).reverse

def parse (s : List UInt8) : Option PowerState :=
  let t := trim s
  if t = asciiBytes "idle" then some idle
  else if t = asciiBytes "active" then some active
  else if t = asciiBytes "turbo" then some turbo
  else none

/-- Whether the step is a legal single transition. -/
def canTransition : PowerState → PowerState → Bool
  | idle, active => true
  | active, turbo => true
  | active, idle => true
  | turbo, active => true
  | turbo, idle => true
  | _, _ => false

end PowerState

structure Nce where
  slot : ℕ
  mmioBase : ℕ
  memBase : ℕ
  memSize : ℕ
  state : PowerState
  hardware : Bool
  deriving DecidableEq, Repr

namespace Nce

def hexStr (n : ℕ) : String := "0x" ++ String.ofList (Nat.toDigits 16 n)

/-- The line that reading `/dev/nceN` yields. -/
def describe (nces : List Nce) (slot : ℕ) : Option (List UInt8) :=
  nces[slot]?.map fun n => asciiBytes
    ("nce" ++ toString n.slot ++ ": state=" ++ n.state.asStr ++ " mmio=" ++ hexStr n.mmioBase ++
      " mem=" ++ hexStr n.memBase ++ "+" ++ hexStr n.memSize ++ " " ++
      (if n.hardware then "hw" else "emulated") ++ "\n")

/-- Request a power transition. -/
def setPower (nces : List Nce) (slot : ℕ) (next : PowerState) : Except String (List Nce) :=
  match nces[slot]? with
  | none => .error "nce: no such slot"
  | some n =>
    if n.state = next then .ok nces
    else if n.state.canTransition next then .ok (nces.set slot { n with state := next })
    else .error "nce: invalid power transition"

end Nce

end LightOS
