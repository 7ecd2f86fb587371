import Mathlib
import ThresholdKeys.KeyShare
import ThresholdKeys.Proofs.Wire.Values

/-!
# What is saved comes back

Texts come back because their bytes are valid UTF-8, and keys whatever their size. So parties,
committees and key shares come back as long as thresholds, positions, counts and sizes are machine
words, and it makes no difference whether a party has a position, whether a point is the identity or
whether the fields fit together.
-/

namespace ThresholdKeys

/-- The sizes of the texts and of the key and the position are machine words. -/
structure PartyId.Fits (p : PartyId) : Prop where
  id : (Bytes.ofString p.id).length < 2 ^ 64
  moniker : (Bytes.ofString p.moniker).length < 2 ^ 64
  key : (Bytes.minimal p.key).length < 2 ^ 64
  index : ∀ i ∈ p.index, i < 2 ^ 64

/-- The numbers, the counts and all that the parties hold are machine words. -/
structure KeyShare.Fits (k : KeyShare) : Prop where
  threshold : k.threshold < 2 ^ 64
  size : k.parties.size < 2 ^ 64
  parties : ∀ p ∈ k.parties.members, p.Fits
  index : k.index < 2 ^ 64
  publicShares : k.publicShares.length < 2 ^ 64

theorem fromUTF8?_ofString (s : String) : String.fromUTF8? ⟨(Bytes.ofString s).toArray⟩ = some s := by
  have hbytes : (⟨(Bytes.ofString s).toArray⟩ : ByteArray) = s.toByteArray := by
    rw [Bytes.ofString_eq, Array.toArray_toList]
  rw [hbytes, String.fromUTF8?, dif_pos s.isValidUTF8]
  rfl

namespace Codec

theorem restores_string {s : String} (h : (Bytes.ofString s).length < 2 ^ 64) : string.Restores s :=
  (restores_bytes h).refine (fromUTF8?_ofString s)

theorem restores_partyId {p : PartyId} (h : p.Fits) : partyId.Restores p := by
  have hfields : (string.pair (string.pair (integer.pair (option u64)))).Restores
      (p.id, p.moniker, p.key, p.index) :=
    (restores_string h.id).pair ((restores_string h.moniker).pair
      ((restores_integer h.key).pair (restores_option fun i hi => restores_u64 (h.index i hi))))
  exact hfields.convert (b := p) rfl

theorem restores_committee {c : Committee} (hsize : c.size < 2 ^ 64)
    (hmembers : ∀ p ∈ c.members, p.Fits) : committee.Restores c := by
  have hlist : (list partyId).Restores c.members :=
    restores_list hsize fun p hp => restores_partyId (hmembers p hp)
  exact hlist.convert (b := c) rfl

end Codec

namespace KeyShare

theorem restores {k : KeyShare} (h : k.Fits) : codec.Restores k := by
  have hshares : (Codec.list Codec.point).Restores k.publicShares :=
    Codec.restores_list h.publicShares fun p _ => Codec.restores_point p
  have hfields := (Codec.restores_u64 h.threshold).pair
    ((Codec.restores_committee h.size h.parties).pair ((Codec.restores_u64 h.index).pair
      ((Codec.restores_scalar k.secret).pair (hshares.pair (Codec.restores_point k.publicKey)))))
  exact hfields.convert (b := k) rfl

/-- A saved key share comes back from its bytes whatever follows them, which is left; and its bytes
begin those of no other key share. -/
theorem survives_saving {k : KeyShare} (h : k.Fits) :
    (∀ suffix, codec.decode (codec.encode k ++ suffix) = some (k, suffix)) ∧
      ∀ k' : KeyShare, k'.Fits → (codec.encode k <+: codec.encode k' ↔ k = k') :=
  ⟨restores h, fun _ h' => (restores h).isPrefix_iff (restores h')⟩

/-- The only party has no position and a key of more than thirty-two bytes, the public key is the
identity, and nothing fits together. -/
theorem survives_saving_misfit :
    let k : KeyShare := ⟨2 ^ 63, ⟨[⟨"a\n", "Zoë", 2 ^ 256, none⟩]⟩, 7, 5, [0, Point.generator], 0⟩
    let k' : KeyShare := { k with publicKey := Point.generator }
    k.Fits ∧ k'.Fits ∧ codec.decode (codec.encode k ++ [0, 1]) = some (k, [0, 1]) ∧
      ¬ codec.encode k <+: codec.encode k' := by
  intro k k'
  have hparty : PartyId.Fits ⟨"a\n", "Zoë", 2 ^ 256, none⟩ :=
    { id := by rw [Bytes.length_ofString]; decide
      moniker := by rw [Bytes.length_ofString]; decide
      key := by decide
      index := fun i hi => by cases hi }
  have hk : k.Fits :=
    { threshold := by decide
      size := by decide
      parties := List.forall_mem_singleton.2 hparty
      index := by decide
      publicShares := by decide }
  have hk' : k'.Fits := ⟨hk.threshold, hk.size, hk.parties, hk.index, hk.publicShares⟩
  refine ⟨hk, hk', (survives_saving hk).1 [0, 1], fun hbegins => ?_⟩
  exact Point.generator_ne_zero
    (congrArg KeyShare.publicKey (((survives_saving hk).2 k' hk').1 hbegins)).symm

end KeyShare

end ThresholdKeys
