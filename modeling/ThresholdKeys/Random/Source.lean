import ThresholdKeys.Random.Search
import ThresholdKeys.Hash.Sha256
import ThresholdKeys.Curve.Scalar

/-!
# Random sources

A source is a sequence of 32-byte words, read as big-endian numbers, and a place in it. Scalars
are drawn by rejection: words that are not below the group order are passed over. A source yields
usable words for ever, so every draw ends.
-/

namespace ThresholdKeys

structure Source where
  word : Nat → Nat
  position : Nat := 0
  fair : ∀ i, ∃ j, i ≤ j ∧ 0 < word j ∧ word j < groupOrder

namespace Source

def isScalar (n : Nat) : Bool := decide (n < groupOrder)

def isNonzeroScalar (n : Nat) : Bool := decide (0 < n ∧ n < groupOrder)

theorem ends_isNonzeroScalar (s : Source) (i : Nat) :
    Ends (fun j => isNonzeroScalar (s.word j)) i :=
  .of_exists (by simpa [isNonzeroScalar] using s.fair i)

theorem ends_isScalar (s : Source) (i : Nat) : Ends (fun j => isScalar (s.word j)) i :=
  .of_exists (by obtain ⟨j, hij, _, hj⟩ := s.fair i; exact ⟨j, hij, by simpa [isScalar] using hj⟩)

def nextWord (s : Source) : Nat × Source := (s.word s.position, { s with position := s.position + 1 })

/-- The next word below the group order; zero is accepted. -/
def nextScalar (s : Source) : Scalar × Source :=
  let i := firstFrom (fun j => isScalar (s.word j)) s.position (s.ends_isScalar s.position)
  (Scalar.ofNat (s.word i), { s with position := i + 1 })

/-- The next word below the group order that is not zero. -/
def nextNonzeroScalar (s : Source) : Scalar × Source :=
  let i := firstFrom (fun j => isNonzeroScalar (s.word j)) s.position
    (s.ends_isNonzeroScalar s.position)
  (Scalar.ofNat (s.word i), { s with position := i + 1 })

def draws {α : Type} (next : Source → α × Source) : Nat → Source → List α × Source
  | 0, s => ([], s)
  | count + 1, s =>
      let (x, s) := next s
      let (xs, s) := draws next count s
      (x :: xs, s)

/-! ## Sources from a seed -/

def seedBlock (seed : Bytes) (counter : Nat) : Bytes := (sha256 (seed ++ Bytes.be64 counter)).bytes

/-- Word `i` of the stream that starts with `head` and goes on with the hashes of the seed and a
counter. -/
def streamWord (head seed : Bytes) (i : Nat) : Nat :=
  let start := (head.drop (32 * i)).take 32
  let skipped := 32 * i - head.length
  let blocks := seedBlock seed (skipped / 32) ++ seedBlock seed (skipped / 32 + 1)
  Bytes.ofBigEndian (start ++ (blocks.drop (skipped % 32)).take (32 - start.length))

def counterRange : Nat := 0x10000000000000000

/-- The stream of a seed. Past the range of its counter all words are one. -/
def seeded (head seed : Bytes) : Source where
  word i := if i < counterRange then streamWord head seed i else 1
  fair i := by
    refine ⟨max i counterRange, Nat.le_max_left .., ?_⟩
    rw [if_neg (Nat.not_lt.2 (Nat.le_max_right ..))]
    decide

end Source

end ThresholdKeys
