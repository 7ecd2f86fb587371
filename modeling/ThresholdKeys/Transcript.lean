import ThresholdKeys.Transcript.Duplex

/-!
# Transcripts

What a proof has bound so far. Prover and verifier append the same labelled messages in the same
order and then draw the same challenge bytes; a message, a label or a length that differs gives
unrelated challenges.
-/

namespace ThresholdKeys

structure Transcript where
  duplex : Duplex

namespace Transcript

/-- The label and the length of an item, ahead of the item itself. -/
def announce (d : Duplex) (label : String) (length : Nat) : Duplex :=
  (d.metadata (Bytes.ofString label)).absorb (Bytes.littleEndian 4 length)

def append (t : Transcript) (label : String) (message : Bytes) : Transcript :=
  ⟨(announce t.duplex label message.length).data message⟩

def appendNumber (t : Transcript) (label : String) (n : Nat) : Transcript :=
  t.append label (Bytes.littleEndian 8 n)

def challenge (t : Transcript) (label : String) (count : Nat) : Bytes × Transcript :=
  let (bytes, d) := (announce t.duplex label count).output count
  (bytes, ⟨d⟩)

def new (label : String) : Transcript :=
  append ⟨Duplex.new (Bytes.ofString "Merlin v1.0")⟩ "dom-sep" (Bytes.ofString label)

end Transcript

end ThresholdKeys
