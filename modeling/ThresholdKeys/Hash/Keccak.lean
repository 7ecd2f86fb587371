import ThresholdKeys.Bytes

/-!
# The Keccak permutation

Keccak-f on 1600 bits, as a function on two hundred bytes. The bytes are twenty-five lanes of
sixty-four bits, lane `x + 5 * y` standing at column `x` and row `y` of a five by five square.
-/

namespace ThresholdKeys.Keccak

abbrev Lanes := Array UInt64

/-- One step of a register of eight bits with feedback. -/
def stepRegister (r : UInt8) : UInt8 := if r < 128 then r <<< 1 else (r <<< 1) ^^^ 113

/-- The places of the bits that a round constant can have, each one below a power of two. -/
def constantPlaces : List UInt64 := [0, 1, 3, 7, 15, 31, 63]

/-- A constant made of the lowest bits of successive states of the register, and the state after
them. -/
def constantFrom (r : UInt8) : UInt64 × UInt8 :=
  constantPlaces.foldl (fun (constant, r) place =>
    (constant ||| ((r &&& 1).toUInt64 <<< place), stepRegister r)) (0, r)

def constantsFrom : Nat → UInt8 → List UInt64
  | 0, _ => []
  | count + 1, r =>
      let (constant, r) := constantFrom r
      constant :: constantsFrom count r

def roundConstants : List UInt64 := constantsFrom 24 1

def offsets : Array UInt64 :=
  #[0, 1, 62, 28, 27, 36, 44, 6, 55, 20, 3, 10, 43, 25, 39, 41, 45, 15, 21, 8, 18, 2, 61, 56, 14]

def rotateLeft (x n : UInt64) : UInt64 := (x <<< n) ||| (x >>> (64 - n))

def lane (a : Lanes) (x y : Nat) : UInt64 := a.getD (x % 5 + 5 * (y % 5)) 0

def mixColumns (a : Lanes) : Lanes :=
  let parity : Lanes := Array.ofFn fun x : Fin 5 =>
    lane a x 0 ^^^ lane a x 1 ^^^ lane a x 2 ^^^ lane a x 3 ^^^ lane a x 4
  let change : Lanes := Array.ofFn fun x : Fin 5 =>
    parity.getD ((x.val + 4) % 5) 0 ^^^ rotateLeft (parity.getD ((x.val + 1) % 5) 0) 1
  Array.ofFn fun i : Fin 25 => a.getD i 0 ^^^ change.getD (i.val % 5) 0

def turnAndMove (a : Lanes) : Lanes :=
  Array.ofFn fun i : Fin 25 =>
    let column := i.val % 5
    let source := (column + 3 * (i.val / 5)) % 5 + 5 * column
    rotateLeft (a.getD source 0) (offsets.getD source 0)

/-- The only step that is not linear: each lane depends on the next two of its row. -/
def combineRows (a : Lanes) : Lanes :=
  Array.ofFn fun i : Fin 25 =>
    let x := i.val % 5
    let y := i.val / 5
    a.getD i 0 ^^^ (~~~lane a (x + 1) y &&& lane a (x + 2) y)

def round (a : Lanes) (constant : UInt64) : Lanes :=
  (combineRows (turnAndMove (mixColumns a))).modify 0 (· ^^^ constant)

def lanesOfBytes (bytes : Array UInt8) : Lanes :=
  Array.ofFn fun i : Fin 25 =>
    (List.range 8).foldr (fun j acc => (acc <<< 8) ||| (bytes.getD (8 * i.val + j) 0).toUInt64) 0

def bytesOfLanes (a : Lanes) : Array UInt8 :=
  Array.ofFn fun i : Fin 200 =>
    ((a.getD (i.val / 8) 0) >>> (UInt64.ofNat (8 * (i.val % 8)))).toUInt8

/-- All rounds on a state of two hundred bytes. -/
def permute (bytes : Array UInt8) : Array UInt8 :=
  bytesOfLanes (roundConstants.foldl round (lanesOfBytes bytes))

end ThresholdKeys.Keccak
