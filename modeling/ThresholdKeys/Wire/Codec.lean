import ThresholdKeys.Bytes

/-!
# Codecs

A codec writes values as bytes and reads a value off the front of bytes, leaving what follows it.
Fixed-width numbers are little-endian, lists and texts stand behind their length, optional values
and alternatives behind a tag.
-/

namespace ThresholdKeys

structure Codec (α : Type) where
  encode : α → Bytes
  /-- The value at the front, and what follows it. -/
  decode : Bytes → Option (α × Bytes)

namespace Codec

attribute [local instance (2000)] instPowNat

variable {α β : Type}

/-- Reads the first value and drops what follows. -/
def decodeFront? (c : Codec α) (bytes : Bytes) : Option α := (c.decode bytes).map Prod.fst

def raw (count : Nat) : Codec Bytes where
  encode bytes := bytes
  decode bytes := if count ≤ bytes.length then some (bytes.splitAt count) else none

def number (width : Nat) : Codec Nat where
  encode := Bytes.littleEndian width
  decode bytes := ((raw width).decode bytes).map fun (front, rest) =>
    (Bytes.ofLittleEndian front, rest)

def u8 : Codec Nat := number 1
def u16 : Codec Nat := number 2
def u32 : Codec Nat := number 4
def u64 : Codec Nat := number 8

/-- Values written through another type, of which only some are read. -/
def refine (c : Codec α) (write : β → α) (read? : α → Option β) : Codec β where
  encode b := c.encode (write b)
  decode bytes := do
    let (a, rest) ← c.decode bytes
    return (← read? a, rest)

def convert (c : Codec α) (write : β → α) (read : α → β) : Codec β :=
  c.refine write fun a => some (read a)

def pair (c : Codec α) (d : Codec β) : Codec (α × β) where
  encode x := c.encode x.1 ++ d.encode x.2
  decode bytes := do
    let (a, rest) ← c.decode bytes
    let (b, rest) ← d.decode rest
    return ((a, b), rest)

def decodeMany (c : Codec α) : Nat → Bytes → Option (List α × Bytes)
  | 0, bytes => some ([], bytes)
  | count + 1, bytes => do
      let (a, rest) ← c.decode bytes
      let (as, rest) ← decodeMany c count rest
      return (a :: as, rest)

/-- The items behind their number. -/
def list (c : Codec α) : Codec (List α) where
  encode as := u64.encode as.length ++ as.flatMap c.encode
  decode bytes := do
    let (count, rest) ← u64.decode bytes
    decodeMany c count rest

def bytes : Codec Bytes where
  encode b := u64.encode b.length ++ b
  decode input := do
    let (length, rest) ← u64.decode input
    (raw length).decode rest

def string : Codec String :=
  bytes.refine Bytes.ofString fun b => String.fromUTF8? ⟨b.toArray⟩

/-- One byte that is zero or one. -/
def bool : Codec Bool :=
  u8.refine Bool.toNat fun n => if n = 0 then some false else if n = 1 then some true else none

/-- A value behind a byte that tells whether there is one. -/
def option (c : Codec α) : Codec (Option α) where
  encode
    | none => bool.encode false
    | some a => bool.encode true ++ c.encode a
  decode input := do
    let (present, rest) ← bool.decode input
    if present then (c.decode rest).map fun (a, rest) => (some a, rest) else some (none, rest)

def base32 : Nat := 0x100000000

def lowDigits32 : Nat → Nat → List Nat
  | 0, _ => []
  | count + 1, n => n % base32 :: lowDigits32 count (n / base32)

def digits32 (n : Nat) : List Nat := if n = 0 then [] else lowDigits32 (n.log2 / 32 + 1) n

def ofDigits32 : List Nat → Nat
  | [] => 0
  | d :: rest => d + base32 * ofDigits32 rest

/-- A number of any size. Leading zero digits are read but never written. -/
def integer : Codec Nat := (list u32).convert digits32 ofDigits32

def decodeAs (c : Codec α) (make : α → β) (input : Bytes) : Option (β × Bytes) :=
  (c.decode input).map fun (a, rest) => (make a, rest)

/-- Alternatives, each behind its number: `branch` reads what stands behind a number. -/
def decodeTagged (branch : Nat → Option (Bytes → Option (α × Bytes))) (input : Bytes) :
    Option (α × Bytes) := do
  let (tag, rest) ← u32.decode input
  (← branch tag) rest

theorem ofDigits32_lowDigits32 (count n : Nat) :
    ofDigits32 (lowDigits32 count n) = n % base32 ^ count := by
  induction count generalizing n with
  | zero => simp [lowDigits32, ofDigits32, Nat.mod_one]
  | succ count ih => rw [lowDigits32, ofDigits32, ih, Nat.pow_succ', Nat.mod_mul]

theorem ofDigits32_digits32 (n : Nat) : ofDigits32 (digits32 n) = n := by
  unfold digits32
  split
  · simp_all [ofDigits32]
  · have hle : 2 ^ (n.log2 + 1) ≤ 2 ^ (32 * (n.log2 / 32 + 1)) :=
      Nat.pow_le_pow_right (by decide) (by omega)
    rw [ofDigits32_lowDigits32]
    exact Nat.mod_eq_of_lt (Nat.lt_of_lt_of_le Nat.lt_log2_self (Nat.pow_mul 2 32 _ ▸ hle))

end Codec

end ThresholdKeys
