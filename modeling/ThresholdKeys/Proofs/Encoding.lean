import Mathlib
import ThresholdKeys.Hash.Sha256

/-!
# Encodings that can be read in one way only

What is hashed is a row of fields. A field is self-delimiting if it can be told where it ends
whatever follows it: numbers of a fixed width, byte strings behind their length and lists behind
their count are. So a row of such fields fixes each of them, and two rows with one digest either
agree in every field or are a collision of the hash.
-/

namespace ThresholdKeys

/-- Two different messages with one digest. -/
def Sha256.Collide (message message' : Bytes) : Prop :=
  message ≠ message' ∧ sha256 message = sha256 message'

theorem Sha256.eq_or_collide {message message' : Bytes} (h : sha256 message = sha256 message') :
    message = message' ∨ Collide message message' :=
  or_iff_not_imp_left.2 fun hne => ⟨hne, h⟩

theorem Digest.bytes_injective : Function.Injective Digest.bytes := by
  rintro ⟨bytes, _⟩ ⟨bytes', _⟩ h
  cases h
  rfl

namespace Bytes

/-! ## Single values -/

theorem minimal_injective : Function.Injective minimal :=
  Function.LeftInverse.injective ofBigEndian_minimal

theorem be64_injOn : Set.InjOn be64 {n | n < 2 ^ 64} := by
  intro n hn m hm h
  have hmod : n % 256 ^ 8 = m % 256 ^ 8 := by
    rw [← ofBigEndian_bigEndian, ← ofBigEndian_bigEndian]
    exact congrArg ofBigEndian h
  rwa [Nat.mod_eq_of_lt (hn.trans_eq (by norm_num)),
    Nat.mod_eq_of_lt (hm.trans_eq (by norm_num))] at hmod

theorem toList_loop (bytes : ByteArray) (i : ℕ) (acc : List UInt8) :
    ByteArray.toList.loop bytes i acc = acc.reverse ++ bytes.data.toList.drop i := by
  fun_induction ByteArray.toList.loop bytes i acc with
  | case1 i acc h ih =>
      have hi : i < bytes.data.toList.length := h
      have hget : bytes.get! i = bytes.data.toList[i] := getElem!_pos bytes.data i hi
      rw [ih, List.reverse_cons, List.append_assoc, List.drop_eq_getElem_cons hi, hget]
      rfl
  | case2 i acc h =>
      have hi : bytes.data.toList.length ≤ i := not_lt.1 h
      rw [List.drop_eq_nil_of_le hi, List.append_nil]

theorem ofString_eq (s : String) : ofString s = s.toByteArray.data.toList := by
  rw [ofString, String.toUTF8, ByteArray.toList, toList_loop, List.reverse_nil, List.nil_append,
    List.drop_zero]

theorem length_ofString (s : String) : (ofString s).length = s.utf8ByteSize := by
  rw [ofString_eq]
  rfl

theorem ofString_injective : Function.Injective ofString := by
  intro s t h
  rw [ofString_eq, ofString_eq] at h
  exact String.toByteArray_inj.1 (ByteArray.ext (Array.toList_inj.1 h))

/-! ## Fields in a row -/

variable {α β : Type} {encode : α → Bytes} {P : α → Prop}

/-- Where the encoding of a value with the property ends, and what value it is, does not depend on
what follows it. -/
def SelfDelimiting (encode : α → Bytes) (P : α → Prop) : Prop :=
  ∀ ⦃a b : α⦄, P a → P b → ∀ ⦃rest rest' : Bytes⦄,
    encode a ++ rest = encode b ++ rest' → a = b ∧ rest = rest'

theorem SelfDelimiting.comp (h : SelfDelimiting encode P) {f : β → α}
    (hf : Function.Injective f) : SelfDelimiting (fun b => encode (f b)) fun b => P (f b) := by
  intro a b ha hb rest rest' heq
  obtain ⟨hab, hrest⟩ := h ha hb heq
  exact ⟨hf hab, hrest⟩

theorem selfDelimiting_of_length {width : ℕ} (hlen : ∀ a, (encode a).length = width)
    (hinj : Set.InjOn encode {a | P a}) : SelfDelimiting encode P := by
  intro a b ha hb rest rest' heq
  obtain ⟨hab, hrest⟩ := List.append_inj heq ((hlen a).trans (hlen b).symm)
  exact ⟨hinj ha hb hab, hrest⟩

theorem selfDelimiting_be64 : SelfDelimiting be64 (· < 2 ^ 64) :=
  selfDelimiting_of_length (fun n => length_bigEndian 8 n) be64_injOn

theorem selfDelimiting_lengthPrefixed :
    SelfDelimiting lengthPrefixed fun bytes => bytes.length < 2 ^ 64 := by
  intro a b ha hb rest rest' heq
  simp only [lengthPrefixed, List.append_assoc] at heq
  obtain ⟨hlen, htail⟩ := selfDelimiting_be64 ha hb heq
  exact List.append_inj htail hlen

/-- As many self-delimiting values in a row. -/
theorem SelfDelimiting.flatMap (h : SelfDelimiting encode P) {as bs : List α}
    (hlen : as.length = bs.length) (has : ∀ a ∈ as, P a) (hbs : ∀ b ∈ bs, P b)
    {rest rest' : Bytes} (heq : as.flatMap encode ++ rest = bs.flatMap encode ++ rest') :
    as = bs ∧ rest = rest' := by
  induction as generalizing bs with
  | nil =>
      obtain rfl := List.length_eq_zero_iff.1 hlen.symm
      exact ⟨rfl, heq⟩
  | cons a as ih =>
      cases bs with
      | nil => cases hlen
      | cons b bs =>
          obtain ⟨ha, has'⟩ := List.forall_mem_cons.1 has
          obtain ⟨hb, hbs'⟩ := List.forall_mem_cons.1 hbs
          simp only [List.flatMap_cons, List.append_assoc] at heq
          obtain ⟨rfl, htail⟩ := h ha hb heq
          obtain ⟨rfl, hrest⟩ := ih (Nat.succ.inj hlen) has' hbs' htail
          exact ⟨rfl, hrest⟩

/-- A list behind its count. -/
theorem SelfDelimiting.counted (h : SelfDelimiting encode P) :
    SelfDelimiting (fun as : List α => be64 as.length ++ as.flatMap encode)
      fun as => as.length < 2 ^ 64 ∧ ∀ a ∈ as, P a := by
  intro as bs has hbs rest rest' heq
  simp only [List.append_assoc] at heq
  obtain ⟨hlen, htail⟩ := selfDelimiting_be64 has.1 hbs.1 heq
  exact h.flatMap hlen has.2 hbs.2 htail

/-- Eight bytes are enough for the number of the integers and for the number of bytes of each. -/
def Fits (ns : List ℕ) : Prop := ns.length < 2 ^ 64 ∧ ∀ n ∈ ns, (minimal n).length < 2 ^ 64

theorem selfDelimiting_integers :
    SelfDelimiting (fun ns : List ℕ =>
      be64 ns.length ++ ns.flatMap fun n => lengthPrefixed (minimal n)) Fits :=
  (selfDelimiting_lengthPrefixed.comp minimal_injective).counted

/-- Values that end a row need no count if none of them is empty. -/
theorem SelfDelimiting.flatMap_injOn (h : SelfDelimiting encode P) (hne : ∀ a, encode a ≠ []) :
    Set.InjOn (fun as : List α => as.flatMap encode) {as | ∀ a ∈ as, P a} := by
  intro as has bs hbs heq
  induction as generalizing bs with
  | nil =>
      cases bs with
      | nil => rfl
      | cons b bs => exact absurd (List.append_eq_nil_iff.1 heq.symm).1 (hne b)
  | cons a as ih =>
      cases bs with
      | nil => exact absurd (List.append_eq_nil_iff.1 heq).1 (hne a)
      | cons b bs =>
          obtain ⟨ha, has'⟩ := List.forall_mem_cons.1 has
          obtain ⟨hb, hbs'⟩ := List.forall_mem_cons.1 hbs
          obtain ⟨rfl, htail⟩ := h ha hb heq
          exact congrArg (List.cons a) (ih has' hbs' htail)

end Bytes

end ThresholdKeys
