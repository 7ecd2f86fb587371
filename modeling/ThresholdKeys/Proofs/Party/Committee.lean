import Mathlib
import ThresholdKeys.Keygen.Parameters
import ThresholdKeys.Proofs.Arithmetic.Primes
import ThresholdKeys.Proofs.Result

/-!
# Committees that were built from lists

The members of such a committee carry their positions, and their keys are evaluation points that
are distinct and not zero. Every member is found in its place by its key, and nowhere else.
-/

namespace ThresholdKeys

theorem checkThreshold_eq_ok_iff {threshold count : ℕ} :
    checkThreshold threshold count = .ok () ↔ 0 < threshold ∧ threshold < count := by
  unfold checkThreshold
  split
  · rename_i h
    exact ⟨fun heq => (by cases heq), fun _ => by omega⟩
  · rename_i h
    exact ⟨fun _ => by omega, fun _ => rfl⟩

namespace Committee

def member (c : Committee) (i : ℕ) : PartyId := (c.get? i).getD ⟨"", "", 0, none⟩

/-- The key of a party, modulo the group order. -/
def pointOf (p : PartyId) : Scalar := Scalar.ofNat p.key

def others (c : Committee) (p : PartyId) : List PartyId :=
  c.members.filter fun q => ¬ q.SameKey p

/-- Positions and evaluation points are as `Committee.ofList` leaves them. -/
structure Proper (c : Committee) : Prop where
  index : ∀ (i : ℕ) (p : PartyId), c.members[i]? = some p → p.index = some i
  ne_zero : ∀ p ∈ c.members, pointOf p ≠ 0
  nodup : (c.members.map pointOf).Nodup

theorem evaluationPoint_eq_ok_iff {p : PartyId} {x : Scalar} :
    p.evaluationPoint = .ok x ↔ pointOf p ≠ 0 ∧ x = pointOf p := by
  rw [PartyId.evaluationPoint, Scalar.ofInteger?_eq]
  by_cases h : Scalar.ofNat p.key = 0
  · simp [pointOf, h]
  · simp [pointOf, h, eq_comm]

theorem mapM_evaluationPoint {parties : List PartyId} {points : List Scalar} :
    parties.mapM PartyId.evaluationPoint = .ok points ↔
      (∀ p ∈ parties, pointOf p ≠ 0) ∧ points = parties.map pointOf := by
  induction parties generalizing points with
  | nil => simp [eq_comm]
  | cons p rest ih =>
      simp only [Result.mapM_cons, Result.bind_eq_ok_iff, evaluationPoint_eq_ok_iff, ih,
        Except.ok.injEq, List.forall_mem_cons, List.map_cons]
      constructor
      · rintro ⟨_, ⟨hp, rfl⟩, _, ⟨hrest, rfl⟩, rfl⟩
        exact ⟨⟨hp, hrest⟩, rfl⟩
      · rintro ⟨⟨hp, hrest⟩, rfl⟩
        exact ⟨_, ⟨hp, rfl⟩, _, ⟨hrest, rfl⟩, rfl⟩

theorem firstRepeated?_eq_none_iff {earlier : List Scalar} {parties : List PartyId} :
    firstRepeated? earlier (parties.zip (parties.map pointOf)) = none ↔
      (∀ p ∈ parties, pointOf p ∉ earlier) ∧ (parties.map pointOf).Nodup := by
  induction parties generalizing earlier with
  | nil => simp [firstRepeated?]
  | cons p rest ih =>
      simp only [List.map_cons, List.zip_cons_cons, firstRepeated?, List.forall_mem_cons,
        List.nodup_cons, List.mem_map, not_exists, not_and]
      by_cases hp : pointOf p ∈ earlier
      · simp [hp]
      · simp only [if_neg hp, ih, List.mem_append, List.mem_singleton, not_or]
        constructor
        · rintro ⟨hrest, hnodup⟩
          exact ⟨⟨hp, fun q hq => (hrest q hq).1⟩, fun q hq => (hrest q hq).2, hnodup⟩
        · rintro ⟨⟨-, hrest⟩, hne, hnodup⟩
          exact ⟨fun q hq => ⟨hrest q hq, hne q hq⟩, hnodup⟩

theorem perm_insertByKey (p : PartyId) (parties : List PartyId) :
    (insertByKey p parties).Perm (p :: parties) := by
  induction parties with
  | nil => exact .refl _
  | cons q rest ih =>
      unfold insertByKey
      split
      · exact .refl _
      · exact (ih.cons q).trans (.swap p q rest)

theorem perm_sortByKey (parties : List PartyId) : (sortByKey parties).Perm parties := by
  induction parties with
  | nil => exact .refl _
  | cons p rest ih => exact (perm_insertByKey p _).trans (ih.cons p)

theorem ofList_eq_ok_iff {parties : List PartyId} {c : Committee} :
    ofList parties = .ok c ↔ parties ≠ [] ∧ (∀ p ∈ parties, pointOf p ≠ 0) ∧
      (parties.map pointOf).Nodup ∧
      c = ⟨(sortByKey parties).mapIdx fun i p => { p with index := some i }⟩ := by
  unfold ofList
  split
  · rename_i hnil
    exact ⟨fun h => (by cases h), fun ⟨hne, _⟩ => absurd hnil hne⟩
  · rename_i hne
    simp only [Result.pure_eq_ok, Result.bind_eq_ok_iff, mapM_evaluationPoint]
    constructor
    · rintro ⟨_, ⟨hzero, rfl⟩, h⟩
      split at h
      · cases h
      · rename_i hnone
        exact ⟨hne, hzero, (firstRepeated?_eq_none_iff.1 hnone).2, (Except.ok.inj h).symm⟩
    · rintro ⟨-, hzero, hnodup, rfl⟩
      have hnone := firstRepeated?_eq_none_iff.2
        ⟨fun p _ => (List.not_mem_nil : pointOf p ∉ []), hnodup⟩
      exact ⟨_, ⟨hzero, rfl⟩, by rw [hnone]⟩

theorem map_placed {β : Type} {f : PartyId → β} (hf : ∀ p i, f { p with index := i } = f p)
    (parties : List PartyId) :
    (parties.mapIdx fun i p => { p with index := some i }).map f = parties.map f := by
  apply List.ext_getElem?
  intro i
  rw [List.getElem?_map, List.getElem?_map, List.getElem?_mapIdx, Option.map_map]
  exact congrFun (congrArg Option.map (funext fun p => hf p (some i))) _

theorem proper_of_ofList {parties : List PartyId} {c : Committee} (h : ofList parties = .ok c) :
    c.Proper := by
  obtain ⟨-, hne, hnodup, rfl⟩ := ofList_eq_ok_iff.1 h
  have hperm := perm_sortByKey parties
  have hmap := map_placed (f := pointOf) (fun _ _ => rfl) (sortByKey parties)
  refine ⟨fun i p hp => ?_, fun p hp => ?_, ?_⟩
  · rw [List.getElem?_mapIdx, Option.map_eq_some_iff] at hp
    obtain ⟨q, -, rfl⟩ := hp
    rfl
  · have hp' : pointOf p ∈ ((sortByKey parties).map pointOf) := hmap ▸ List.mem_map_of_mem hp
    obtain ⟨q, hq, heq⟩ := List.mem_map.1 hp'
    exact heq ▸ hne q (hperm.mem_iff.1 hq)
  · rw [hmap]
    exact (hperm.map pointOf).nodup_iff.2 hnodup

section Members

variable {c : Committee}

theorem member_eq {i : ℕ} (hi : i < c.size) : c.members[i]? = some (c.member i) := by
  rw [member, get?, List.getElem?_eq_getElem hi, Option.getD_some]

theorem member_mem {i : ℕ} (hi : i < c.size) : c.member i ∈ c.members :=
  List.mem_of_getElem? (member_eq hi)

theorem getElem?_points {i : ℕ} (hi : i < c.size) :
    (c.members.map pointOf)[i]? = some (pointOf (c.member i)) := by
  rw [List.getElem?_map, member_eq hi, Option.map_some]

theorem mem_iff {p : PartyId} : p ∈ c.members ↔ ∃ i < c.size, c.member i = p := by
  constructor
  · intro hp
    obtain ⟨i, hi⟩ := List.mem_iff_getElem?.1 hp
    have hlt := (List.getElem?_eq_some_iff.1 hi).1
    exact ⟨i, hlt, Option.some.inj ((member_eq hlt).symm.trans hi)⟩
  · rintro ⟨i, hi, rfl⟩
    exact member_mem hi

theorem exists_member_of_find? {p : PartyId} (h : (c.find? p).isSome) :
    ∃ i < c.size, (c.member i).SameKey p := by
  obtain ⟨q, hq⟩ := Option.isSome_iff_exists.1 h
  obtain ⟨i, hi, rfl⟩ := mem_iff.1 (List.mem_of_find?_eq_some hq)
  exact ⟨i, hi, by simpa using List.find?_some hq⟩

theorem position?_congr {p q : PartyId} (hkey : p.SameKey q) : c.position? p = c.position? q := by
  have hsame : (fun r : PartyId => decide (r.SameKey p)) = fun r => decide (r.SameKey q) := by
    funext r
    exact decide_eq_decide.2 ⟨fun h => h.trans hkey, fun h => h.trans hkey.symm⟩
  rw [position?, find?, hsame, position?, find?]

/-- Who sits somewhere sits on the committee, where it claims to. -/
theorem seat?_eq_some_iff {p : PartyId} {i : ℕ} :
    c.seat? p = some i ↔ p.index = some i ∧ i < c.size ∧ (c.member i).SameKey p := by
  simp only [seat?, Option.bind_eq_bind, Option.bind_eq_some_iff, Option.ite_none_right_eq_some,
    Option.some.injEq]
  constructor
  · rintro ⟨_, hi, q, hq, hkey, rfl⟩
    have hlt := (List.getElem?_eq_some_iff.1 hq).1
    rw [member_eq hlt] at hq
    obtain rfl := Option.some.inj hq
    exact ⟨hi, hlt, hkey⟩
  · rintro ⟨hi, hlt, hkey⟩
    exact ⟨i, hi, _, member_eq hlt, hkey, rfl⟩

theorem members_eq : c.members = (List.range c.size).map c.member := by
  apply List.ext_getElem?
  intro i
  by_cases hi : i < c.size
  · rw [member_eq hi, List.getElem?_map, List.getElem?_range hi, Option.map_some]
  · have hi' := Nat.not_lt.1 hi
    rw [List.getElem?_eq_none hi', List.getElem?_eq_none (by simpa using hi')]

theorem zipIdx_members : c.members.zipIdx = (List.range c.size).map fun i => (c.member i, i) := by
  apply List.ext_getElem?
  intro i
  rw [List.getElem?_zipIdx, List.getElem?_map]
  by_cases hi : i < c.size
  · simp [member_eq hi, List.getElem?_range hi]
  · have hi' := Nat.not_lt.1 hi
    rw [List.getElem?_eq_none hi', List.getElem?_eq_none (by simpa using hi')]
    rfl

theorem mem_others_iff {p q : PartyId} : q ∈ c.others p ↔ q ∈ c.members ∧ ¬ q.SameKey p := by
  rw [others, List.mem_filter, decide_eq_true_iff]

end Members

namespace Proper

variable {c : Committee}

variable (h : c.Proper)

include h

theorem index_member {i : ℕ} (hi : i < c.size) : (c.member i).index = some i :=
  h.index i _ (member_eq hi)

theorem points_eq : c.points = .ok (c.members.map pointOf) :=
  mapM_evaluationPoint.2 ⟨h.ne_zero, rfl⟩

theorem eq_of_pointOf {p q : PartyId} (hp : p ∈ c.members) (hq : q ∈ c.members)
    (hpoint : pointOf p = pointOf q) : p = q :=
  List.inj_on_of_nodup_map h.nodup hp hq hpoint

theorem eq_of_sameKey {i j : ℕ} (hi : i < c.size) (hj : j < c.size)
    (hkey : (c.member i).SameKey (c.member j)) : i = j := by
  have hmember : c.member i = c.member j :=
    h.eq_of_pointOf (member_mem hi) (member_mem hj) (congrArg Scalar.ofNat hkey)
  have hindex := h.index_member hi
  rw [hmember, h.index_member hj] at hindex
  exact (Option.some.inj hindex).symm

theorem sameKey_iff {i j : ℕ} (hi : i < c.size) (hj : j < c.size) :
    (c.member i).SameKey (c.member j) ↔ i = j :=
  ⟨h.eq_of_sameKey hi hj, fun hij => hij ▸ rfl⟩

theorem find?_eq {i : ℕ} (hi : i < c.size) {p : PartyId} (hp : (c.member i).SameKey p) :
    c.find? p = some (c.member i) := by
  unfold find?
  cases hfind : c.members.find? fun q => decide (q.SameKey p) with
  | none =>
      have hnone := List.find?_eq_none.1 hfind _ (member_mem hi)
      exact absurd (decide_eq_true hp) hnone
  | some q =>
      obtain ⟨j, hj, rfl⟩ := mem_iff.1 (List.mem_of_find?_eq_some hfind)
      have hkey : (c.member j).SameKey p := by simpa using List.find?_some hfind
      rw [h.eq_of_sameKey hj hi (hkey.trans hp.symm)]

theorem find?_member {i : ℕ} (hi : i < c.size) : c.find? (c.member i) = some (c.member i) :=
  h.find?_eq hi rfl

theorem position?_eq {i : ℕ} (hi : i < c.size) {p : PartyId} (hp : (c.member i).SameKey p) :
    c.position? p = some i := by
  rw [position?, h.find?_eq hi hp, Option.bind_some, h.index_member hi]

theorem position?_eq_some_iff {p : PartyId} {i : ℕ} :
    c.position? p = some i ↔ i < c.size ∧ (c.member i).SameKey p := by
  refine ⟨fun hposition => ?_, fun ⟨hi, hp⟩ => h.position?_eq hi hp⟩
  have hfound : (c.find? p).isSome := by
    cases hfind : c.find? p with
    | none => simp [position?, hfind] at hposition
    | some q => rfl
  obtain ⟨j, hj, hkey⟩ := exists_member_of_find? hfound
  obtain rfl := Option.some.inj ((h.position?_eq hj hkey).symm.trans hposition)
  exact ⟨hj, hkey⟩

theorem sameKey_of_position? {p q : PartyId} {i : ℕ} (hp : c.position? p = some i)
    (hq : c.position? q = some i) : p.SameKey q :=
  (h.position?_eq_some_iff.1 hp).2.symm.trans (h.position?_eq_some_iff.1 hq).2

theorem find?_eq_map_position? (p : PartyId) : c.find? p = (c.position? p).map c.member := by
  cases hposition : c.position? p with
  | some i =>
      obtain ⟨hi, hkey⟩ := h.position?_eq_some_iff.1 hposition
      exact h.find?_eq hi hkey
  | none =>
      by_contra hfound
      obtain ⟨i, hi, hkey⟩ := exists_member_of_find? (Option.isSome_iff_ne_none.2 hfound)
      rw [h.position?_eq hi hkey] at hposition
      cases hposition

theorem isSome_find? (p : PartyId) : (c.find? p).isSome = (c.position? p).isSome := by
  rw [h.find?_eq_map_position?, Option.isSome_map]

theorem seat?_member {i : ℕ} (hi : i < c.size) : c.seat? (c.member i) = some i := by
  simp [seat?, h.index_member hi, member_eq hi, PartyId.SameKey]

theorem wellFormed_member {i : ℕ} (hi : i < c.size) : (c.member i).WellFormed := by
  have hne : Scalar.ofNat (c.member i).key ≠ 0 := h.ne_zero _ (member_mem hi)
  refine ⟨by rw [h.index_member hi]; rfl, ?_⟩
  rw [PartyId.evaluationPoint?_eq, if_neg hne]
  rfl

theorem exclude_eq (i : ℕ) :
    c.exclude i = ((List.range c.size).filter (· ≠ i)).map c.member := by
  rw [exclude, members_eq, List.filter_map]
  refine congrArg (List.map c.member) (List.filter_congr fun j hj => ?_)
  simp [h.index_member (List.mem_range.1 hj)]

theorem exists_index_of_mem_exclude {p : PartyId} {i : ℕ} (hp : p ∈ c.exclude i) :
    ∃ j < c.size, p.index = some j := by
  rw [h.exclude_eq] at hp
  obtain ⟨j, hj, rfl⟩ := List.mem_map.1 hp
  have hlt := List.mem_range.1 (List.mem_filter.1 hj).1
  exact ⟨j, hlt, h.index_member hlt⟩

theorem others_eq (p : PartyId) :
    c.others p = ((List.range c.size).filter fun j => c.position? p ≠ some j).map c.member := by
  rw [others, members_eq, List.filter_map]
  refine congrArg (List.map c.member) (List.filter_congr fun j hj => ?_)
  have hposition := h.position?_eq_some_iff (p := p) (i := j)
  rw [Function.comp_apply, decide_eq_decide, not_iff_not, hposition,
    and_iff_right (List.mem_range.1 hj)]

end Proper

end Committee

end ThresholdKeys
