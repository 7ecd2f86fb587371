import ThresholdKeys.Hash.Keccak

/-!
# The duplex behind a transcript

A sponge over the Keccak permutation that absorbs labelled data and squeezes pseudorandom bytes
in one history. Every operation first absorbs its own kind and the place where the operation
before it began, so the history can be read in one way only.
-/

namespace ThresholdKeys

structure Duplex where
  state : Array UInt8
  /-- The next byte of the state to absorb into or to squeeze from. -/
  position : Nat
  /-- Where the running operation began, counted from one; zero if it began before the last
  permutation. -/
  begun : Nat

namespace Duplex

def rate : Nat := 166

/-- What an operation does, as the bits of one byte. -/
inductive Operation
  | metadata
  | data
  | output

def Operation.flags : Operation → UInt8
  | .metadata => 18
  | .data => 2
  | .output => 7

/-- Only output has to start on a fresh state. -/
def Operation.needsFreshState : Operation → Bool
  | .output => true
  | _ => false

def permuted (d : Duplex) : Duplex :=
  let state := d.state.modify d.position (· ^^^ UInt8.ofNat d.begun)
  let state := state.modify (d.position + 1) (· ^^^ 4)
  let state := state.modify (rate + 1) (· ^^^ 128)
  ⟨Keccak.permute state, 0, 0⟩

def advance (d : Duplex) : Duplex :=
  if d.position + 1 = rate then permuted { d with position := rate }
  else { d with position := d.position + 1 }

def absorb (d : Duplex) (bytes : Bytes) : Duplex :=
  bytes.foldl (fun d b => advance { d with state := d.state.modify d.position (· ^^^ b) }) d

def squeeze (d : Duplex) : Nat → Bytes × Duplex
  | 0 => ([], d)
  | count + 1 =>
      let b := d.state.getD d.position 0
      let (rest, last) :=
        squeeze (advance { d with state := d.state.modify d.position fun _ => 0 }) count
      (b :: rest, last)

def beginOperation (d : Duplex) (op : Operation) : Duplex :=
  let d' := absorb { d with begun := d.position + 1 } [UInt8.ofNat d.begun, op.flags]
  if op.needsFreshState && d'.position != 0 then permuted d' else d'

def metadata (d : Duplex) (bytes : Bytes) : Duplex := absorb (d.beginOperation .metadata) bytes

def data (d : Duplex) (bytes : Bytes) : Duplex := absorb (d.beginOperation .data) bytes

def output (d : Duplex) (count : Nat) : Bytes × Duplex := squeeze (d.beginOperation .output) count

def new (protocolName : Bytes) : Duplex :=
  let head := [1, 168, 1, 0, 1, 96] ++ Bytes.ofString "STROBEv1.0.2"
  let blank := (head ++ List.replicate (200 - head.length) 0).toArray
  metadata ⟨Keccak.permute blank, 0, 0⟩ protocolName

end Duplex

end ThresholdKeys
