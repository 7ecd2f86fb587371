/-!
# Binary digits

Repeated doubling along the binary digits of a number, from the most significant on: the pattern
behind fast powers and fast multiples.
-/

namespace ThresholdKeys

section Digits

attribute [local instance (2000)] instPowNat

/-- The binary digits of a number, least significant first. Zero has one digit. -/
def bits (n : Nat) : List Bool := (List.range (n.log2 + 1)).map n.testBit

/-- Doubles once a digit, and adds one more where the digit is a one. -/
def alongBits {α : Type} (double addOne : α → α) (zero : α) (n : Nat) : α :=
  (bits n).foldr (fun bit acc => if bit then addOne (double acc) else double acc) zero

def ofBits : List Bool → Nat
  | [] => 0
  | b :: rest => 2 * ofBits rest + b.toNat

theorem ofBits_testBit (count n : Nat) :
    ofBits ((List.range count).map n.testBit) = n % 2 ^ count := by
  induction count generalizing n with
  | zero => simp [ofBits, Nat.mod_one]
  | succ count ih =>
      have shift : (List.range count).map (n.testBit ∘ Nat.succ) =
          (List.range count).map (n / 2).testBit :=
        List.map_congr_left fun i _ => Nat.testBit_succ n i
      rw [List.range_succ_eq_map, List.map_cons, List.map_map, shift, ofBits, ih,
        Nat.testBit_zero, Nat.pow_succ', Nat.mod_mul, Nat.add_comm]
      rcases Nat.mod_two_eq_zero_or_one n with h | h <;> simp [h]

theorem ofBits_bits (n : Nat) : ofBits (bits n) = n := by
  rw [bits, ofBits_testBit, Nat.mod_eq_of_lt Nat.lt_log2_self]

end Digits

theorem alongBits_eq {α : Type} {double addOne : α → α} {zero : α} {multiple : Nat → α}
    (hzero : multiple 0 = zero) (hdouble : ∀ n, multiple (2 * n) = double (multiple n))
    (hadd : ∀ n, multiple (2 * n + 1) = addOne (double (multiple n))) (n : Nat) :
    alongBits double addOne zero n = multiple n := by
  have digits : ∀ ds : List Bool, ds.foldr
      (fun bit acc => if bit then addOne (double acc) else double acc) zero =
        multiple (ofBits ds) := by
    intro ds
    induction ds with
    | nil => exact hzero.symm
    | cons b rest ih =>
        rw [List.foldr_cons, ih, ofBits]
        cases b with
        | false => simp [hdouble]
        | true => simp [hadd]
  rw [alongBits, digits, ofBits_bits]

end ThresholdKeys
