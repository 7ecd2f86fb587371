import Mathlib
import ThresholdKeys.Proofs.Commitment
import ThresholdKeys.Proofs.Encoding
import ThresholdKeys.Proofs.Sharing.Dealing

/-!
# Commitments to integers

A commitment is opened by what it was made with, and opening it gives the committed integers. The
encoding that is hashed tells lists of integers apart, so whoever opens one commitment in two ways
has found two messages with one digest.
-/

namespace ThresholdKeys

theorem Opening.encoding_injOn : Set.InjOn encoding {elements | Bytes.Fits elements} := by
  intro elements h elements' h' heq
  simp only [encoding, List.append_assoc, List.append_cancel_left_eq] at heq
  exact (Bytes.selfDelimiting_integers h h' (congrArg (· ++ []) heq)).1

/-- Different lists of integers with one commitment. If both have an encoding of their own, then the
encodings are a collision of the hash. -/
structure Opening.Collide (o o' : Opening) : Prop where
  elements_ne : o.elements ≠ o'.elements
  digest_eq : sha256 (encoding o.elements) = sha256 (encoding o'.elements)
  encodings : Bytes.Fits o.elements → Bytes.Fits o'.elements →
    Sha256.Collide (encoding o.elements) (encoding o'.elements)

theorem Opening.eq_or_collide {o o' : Opening} (h : o.commitment = o'.commitment) :
    o = o' ∨ o.Collide o' := by
  refine or_iff_not_imp_left.2 fun hne => ?_
  have helements : o.elements ≠ o'.elements := fun heq => hne (congrArg Opening.mk heq)
  have hdigest : sha256 (encoding o.elements) = sha256 (encoding o'.elements) :=
    congrArg Commitment.digest h
  refine ⟨helements, hdigest, fun hfits hfits' => ⟨fun heq => ?_, hdigest⟩⟩
  exact helements (encoding_injOn hfits hfits' heq)

namespace Commitment

theorem open?_eq_some_iff_tail {c : Commitment} {o : Opening} {values : List ℕ} :
    c.open? o = some values ↔ o.elements ≠ [] ∧
      c.digest = sha256 (Opening.encoding o.elements) ∧ values = o.elements.tail := by
  rw [open?_eq_some_iff]
  constructor
  · rintro ⟨rfl, r, he⟩
    exact ⟨he ▸ List.cons_ne_nil r values, rfl, by rw [he, List.tail_cons]⟩
  · rintro ⟨hne, hdigest, rfl⟩
    obtain ⟨r, rest, he⟩ := List.exists_cons_of_ne_nil hne
    refine ⟨?_, r, ?_⟩
    · rw [Opening.commitment, ← hdigest]
    · rw [he, List.tail_cons]

/-- Commitments are opened by what they were made with, by nothing else unless the hash collides,
and always to the integers behind the random element. -/
theorem opens_and_binds :
    (∀ (source : Source) (values : List ℕ),
      (commit source values).1.1.open? (commit source values).1.2 = some values) ∧
    (∀ (c : Commitment) (o : Opening) (values : List ℕ),
      c.open? o = some values ↔ o.elements ≠ [] ∧
        c.digest = sha256 (Opening.encoding o.elements) ∧ values = o.elements.tail) ∧
    Set.InjOn Opening.encoding {elements | Bytes.Fits elements} ∧
    ∀ (c : Commitment) (o o' : Opening) (values values' : List ℕ),
      Bytes.Fits o.elements → Bytes.Fits o'.elements →
      c.open? o = some values → c.open? o' = some values' →
        o = o' ∨ Sha256.Collide (Opening.encoding o.elements) (Opening.encoding o'.elements) := by
  refine ⟨?_, ?_, Opening.encoding_injOn, ?_⟩
  · intro source values
    exact open?_eq_some_iff.2 ⟨rfl, source.nextWord.1, rfl⟩
  · intro c o values
    exact open?_eq_some_iff_tail
  · intro c o o' values values' hfits hfits' h h'
    have hsame : o.commitment = o'.commitment :=
      (open?_eq_some_iff.1 h).1.trans (open?_eq_some_iff.1 h').1.symm
    exact (Opening.eq_or_collide hsame).imp_right fun hcollide => hcollide.encodings hfits hfits'

theorem opens_and_binds_groups :
    (commit .ones [0, 65536]).1.1.open? ⟨[1, 0, 65536]⟩ = some [0, 65536] ∧
      ((commit .ones [0, 65536]).1.2 = ⟨[1, 0, 65536]⟩ ∨
        Sha256.Collide (Opening.encoding (commit .ones [0, 65536]).1.2.elements)
          (Opening.encoding [1, 0, 65536])) ∧
      Opening.encoding [1, 0] ≠ Opening.encoding [256] := by
  obtain ⟨hopens, hiff, hinj, hbinds⟩ := opens_and_binds
  have hopen : (commit .ones [0, 65536]).1.1.open? ⟨[1, 0, 65536]⟩ = some [0, 65536] :=
    (hiff _ _ _).2 ⟨by decide, rfl, rfl⟩
  refine ⟨hopen, ?_, fun heq => ?_⟩
  · have hfits : Bytes.Fits [1, 0, 65536] := ⟨by decide, by decide⟩
    exact hbinds _ _ _ _ _ hfits hfits (hopens .ones [0, 65536]) hopen
  · have h : Bytes.Fits [1, 0] := ⟨by decide, by decide⟩
    have h' : Bytes.Fits [256] := ⟨by decide, by decide⟩
    exact absurd (hinj h h' heq) (by decide)

end Commitment

end ThresholdKeys
