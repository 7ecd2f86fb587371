import Mathlib
import ThresholdKeys.Wire.Codec

/-!
# Reading back what was written

A codec restores a value if it reads the value off the front of its encoding, whatever follows, and
leaves what follows. Pairs, lists and alternatives restore whatever their parts restore, so nothing
but the width of a number limits what a codec restores.
-/

namespace ThresholdKeys.Codec

variable {α β : Type}

/-- The value comes back from its encoding, and what follows is left. -/
def Restores (c : Codec α) (a : α) : Prop :=
  ∀ rest, c.decode (c.encode a ++ rest) = some (a, rest)

/-- No encoding of a value that comes back begins with that of another one. -/
theorem Restores.isPrefix_iff {c : Codec α} {a b : α} (ha : c.Restores a) (hb : c.Restores b) :
    c.encode a <+: c.encode b ↔ a = b := by
  constructor
  · rintro ⟨rest, hrest⟩
    have hdecode := hb []
    rw [List.append_nil, ← hrest, ha rest] at hdecode
    exact congrArg Prod.fst (Option.some.inj hdecode)
  · rintro rfl
    exact List.prefix_rfl

theorem Restores.decodeFront? {c : Codec α} {a : α} (h : c.Restores a) (rest : Bytes) :
    c.decodeFront? (c.encode a ++ rest) = some a := by
  rw [Codec.decodeFront?, h rest, Option.map_some]

/-! ## Bytes and numbers -/

theorem restores_raw (b : Bytes) : (raw b.length).Restores b := by
  intro rest
  have hle : b.length ≤ (b ++ rest).length := by
    rw [List.length_append]
    exact Nat.le_add_right ..
  simp only [raw, if_pos hle, List.splitAt_eq, List.take_left, List.drop_left]

theorem restores_number {width n : ℕ} (h : n < 256 ^ width) : (number width).Restores n := by
  intro rest
  have hraw := restores_raw (Bytes.littleEndian width n) rest
  rw [Bytes.length_littleEndian] at hraw
  simp only [number]
  rw [show (raw width).decode (Bytes.littleEndian width n ++ rest) = _ from hraw, Option.map_some,
    Bytes.ofLittleEndian_littleEndian, Nat.mod_eq_of_lt h]

theorem restores_u32 {n : ℕ} (h : n < 2 ^ 32) : u32.Restores n :=
  restores_number (h.trans_eq (by norm_num))

theorem restores_u64 {n : ℕ} (h : n < 2 ^ 64) : u64.Restores n :=
  restores_number (h.trans_eq (by norm_num))

theorem restores_bytes {b : Bytes} (h : b.length < 2 ^ 64) : bytes.Restores b := by
  intro rest
  have hlength := restores_u64 h (b ++ rest)
  simp only [bytes, List.append_assoc, hlength, Option.bind_eq_bind, Option.bind_some]
  exact restores_raw b rest

/-! ## Values made of others -/

theorem Restores.refine {c : Codec α} {write : β → α} {read? : α → Option β} {b : β}
    (h : c.Restores (write b)) (hread : read? (write b) = some b) :
    (c.refine write read?).Restores b := by
  intro rest
  simp only [Codec.refine, h rest, Option.bind_eq_bind, Option.bind_some, hread]
  rfl

theorem Restores.convert {c : Codec α} {write : β → α} {read : α → β} {b : β}
    (h : c.Restores (write b)) (hread : read (write b) = b) : (c.convert write read).Restores b :=
  h.refine (congrArg some hread)

theorem Restores.pair {c : Codec α} {d : Codec β} {a : α} {b : β} (ha : c.Restores a)
    (hb : d.Restores b) : (c.pair d).Restores (a, b) := by
  intro rest
  simp only [Codec.pair, List.append_assoc, ha (d.encode b ++ rest), Option.bind_eq_bind,
    Option.bind_some, hb rest]
  rfl

theorem restores_bool (b : Bool) : bool.Restores b := by
  have hbyte : u8.Restores b.toNat := restores_number (b.toNat_lt.trans (by norm_num))
  exact hbyte.refine (by cases b <;> rfl)

theorem restores_option {c : Codec α} {o : Option α} (h : ∀ a ∈ o, c.Restores a) :
    (option c).Restores o := by
  intro rest
  cases o with
  | none =>
      simp only [option, restores_bool false rest, Option.bind_eq_bind, Option.bind_some]
      rfl
  | some a =>
      simp only [option, List.append_assoc, restores_bool true (c.encode a ++ rest),
        Option.bind_eq_bind, Option.bind_some, h a rfl rest]
      rfl

theorem decodeMany_flatMap {c : Codec α} {as : List α} (h : ∀ a ∈ as, c.Restores a)
    (rest : Bytes) :
    decodeMany c as.length (as.flatMap c.encode ++ rest) = some (as, rest) := by
  induction as with
  | nil => rfl
  | cons a as ih =>
      obtain ⟨ha, has⟩ := List.forall_mem_cons.1 h
      simp only [List.length_cons, decodeMany, List.flatMap_cons, List.append_assoc,
        ha (as.flatMap c.encode ++ rest), Option.bind_eq_bind, Option.bind_some, ih has]
      rfl

theorem restores_list {c : Codec α} {as : List α} (hlen : as.length < 2 ^ 64)
    (h : ∀ a ∈ as, c.Restores a) : (list c).Restores as := by
  intro rest
  simp only [list, List.append_assoc, restores_u64 hlen (as.flatMap c.encode ++ rest),
    Option.bind_eq_bind, Option.bind_some]
  exact decodeMany_flatMap h rest

/-! ## Numbers of any size -/

theorem length_lowDigits32 (count n : ℕ) : (lowDigits32 count n).length = count := by
  induction count generalizing n with
  | zero => rfl
  | succ count ih => exact congrArg Nat.succ (ih _)

theorem lt_of_mem_lowDigits32 {count n d : ℕ} (hd : d ∈ lowDigits32 count n) : d < 2 ^ 32 := by
  induction count generalizing n with
  | zero => exact absurd hd List.not_mem_nil
  | succ count ih =>
      rcases List.mem_cons.1 hd with rfl | hd
      · exact Nat.mod_lt n (by decide)
      · exact ih hd

theorem lt_of_mem_digits32 {n d : ℕ} (hd : d ∈ digits32 n) : d < 2 ^ 32 := by
  unfold digits32 at hd
  split at hd
  · exact absurd hd List.not_mem_nil
  · exact lt_of_mem_lowDigits32 hd

theorem length_digits32_le (n : ℕ) : (digits32 n).length ≤ (Bytes.minimal n).length := by
  rw [Bytes.minimal, Bytes.length_bigEndian, Bytes.digitCount]
  unfold digits32
  split
  · exact Nat.zero_le _
  · rw [length_lowDigits32]
    omega

theorem restores_integer {n : ℕ} (h : (Bytes.minimal n).length < 2 ^ 64) : integer.Restores n := by
  have hdigits : (list u32).Restores (digits32 n) :=
    restores_list ((length_digits32_le n).trans_lt h) fun d hd =>
      restores_u32 (lt_of_mem_digits32 hd)
  exact hdigits.convert (ofDigits32_digits32 n)

/-! ## Alternatives -/

variable {branch : ℕ → Option (Bytes → Option (α × Bytes))} (tag : ℕ)

theorem decodeTagged_encode (htag : tag < 2 ^ 32) {read : Bytes → Option (α × Bytes)}
    (hbranch : branch tag = some read) (input : Bytes) :
    decodeTagged branch (u32.encode tag ++ input) = read input := by
  simp only [decodeTagged, restores_u32 htag input, Option.bind_eq_bind, Option.bind_some, hbranch]

theorem Restores.decodeTagged {c : Codec β} {b : β} (h : c.Restores b) (htag : tag < 2 ^ 32)
    {make : β → α} (hbranch : branch tag = some (c.decodeAs make)) (rest : Bytes) :
    Codec.decodeTagged branch (u32.encode tag ++ c.encode b ++ rest) = some (make b, rest) := by
  rw [List.append_assoc, decodeTagged_encode tag htag hbranch, decodeAs, h rest, Option.map_some]

end ThresholdKeys.Codec
