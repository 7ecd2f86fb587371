import Mathlib
import ThresholdKeys.Proofs.Party.Committee

/-!
# One committee for each set of parties

Parties make up a committee if there are any and their keys are distinct modulo the group order, none
of them zero. Neither the order in which the parties are given nor the positions that they come with
leave a trace in it: the members stand in the order of their keys as whole numbers, even where that
is not the order of their evaluation points. So every key has one place, and a party is a member
where its key is.
-/

namespace ThresholdKeys

def PartyId.unplaced (p : PartyId) : PartyId := { p with index := none }

namespace Committee

variable {parties parties' : List PartyId} {c c' : Committee}

/-- The parties can make up a committee. -/
structure Eligible (parties : List PartyId) : Prop where
  ne_nil : parties ≠ []
  ne_zero : ∀ p ∈ parties, p.key % groupOrder ≠ 0
  distinct : parties.Pairwise fun p q => p.key % groupOrder ≠ q.key % groupOrder

/-- The members are the given parties, whatever positions these carry, by rising keys and each at the
position that it carries. -/
structure Lists (c : Committee) (parties : List PartyId) : Prop where
  perm : (c.members.map PartyId.unplaced).Perm (parties.map PartyId.unplaced)
  sorted : c.members.Pairwise fun p q => p.key < q.key
  index : ∀ (i : ℕ) (p : PartyId), c.get? i = some p → p.index = some i

theorem pointOf_ne_zero_iff {p : PartyId} : pointOf p ≠ 0 ↔ p.key % groupOrder ≠ 0 :=
  not_congr (Residue.ofNat_eq_zero_iff p.key)

theorem pointOf_eq_iff {p q : PartyId} :
    pointOf p = pointOf q ↔ p.key % groupOrder = q.key % groupOrder :=
  Residue.ofNat_eq_ofNat_iff p.key q.key

theorem eligible_iff : Eligible parties ↔
    parties ≠ [] ∧ (∀ p ∈ parties, pointOf p ≠ 0) ∧ (parties.map pointOf).Nodup := by
  have hdistinct : (parties.map pointOf).Nodup ↔
      parties.Pairwise fun p q => p.key % groupOrder ≠ q.key % groupOrder := by
    simp only [List.Nodup, List.pairwise_map, ne_eq, pointOf_eq_iff]
  simp only [pointOf_ne_zero_iff, hdistinct]
  exact ⟨fun h => ⟨h.ne_nil, h.ne_zero, h.distinct⟩, fun ⟨h, h', h''⟩ => ⟨h, h', h''⟩⟩

/-! ## Sorting -/

theorem sorted_insertByKey (p : PartyId) (h : parties.Pairwise fun p q => p.key ≤ q.key) :
    (insertByKey p parties).Pairwise fun p q => p.key ≤ q.key := by
  induction parties with
  | nil => exact List.pairwise_singleton _ p
  | cons q rest ih =>
      obtain ⟨hq, hrest⟩ := List.pairwise_cons.1 h
      unfold insertByKey
      split
      · rename_i hle
        refine List.pairwise_cons.2 ⟨fun r hr => ?_, h⟩
        rcases List.mem_cons.1 hr with rfl | hr
        · exact hle
        · exact hle.trans (hq r hr)
      · rename_i hlt
        refine List.pairwise_cons.2 ⟨fun r hr => ?_, ih hrest⟩
        rcases List.mem_cons.1 ((perm_insertByKey p rest).mem_iff.1 hr) with rfl | hr
        · omega
        · exact hq r hr

theorem sorted_sortByKey (parties : List PartyId) :
    (sortByKey parties).Pairwise fun p q => p.key ≤ q.key := by
  induction parties with
  | nil => exact List.Pairwise.nil
  | cons p rest ih => exact sorted_insertByKey p ih

/-- Keys with distinct evaluation points rise strictly. -/
theorem Eligible.sorted_sortByKey (h : Eligible parties) :
    (sortByKey parties).Pairwise fun p q => p.key < q.key := by
  have hdistinct : (sortByKey parties).Pairwise fun p q =>
      p.key % groupOrder ≠ q.key % groupOrder :=
    ((perm_sortByKey parties).pairwise_iff Ne.symm).2 h.distinct
  refine ((Committee.sorted_sortByKey parties).and hdistinct).imp fun ⟨hle, hne⟩ => ?_
  exact lt_of_le_of_ne hle fun heq => hne (congrArg (· % groupOrder) heq)

/-! ## What a committee is determined by -/

theorem map_unplaced_placed (parties : List PartyId) :
    (parties.mapIdx fun i p => { p with index := some i }).map PartyId.unplaced =
      parties.map PartyId.unplaced :=
  map_placed (fun _ _ => rfl) parties

theorem pairwise_map_unplaced {R : ℕ → ℕ → Prop} :
    (parties.map PartyId.unplaced).Pairwise (fun p q => R p.key q.key) ↔
      parties.Pairwise fun p q => R p.key q.key :=
  List.pairwise_map

theorem Eligible.lists (h : Eligible parties) :
    Lists ⟨(sortByKey parties).mapIdx fun i p => { p with index := some i }⟩ parties where
  perm := by
    rw [map_unplaced_placed]
    exact (perm_sortByKey parties).map _
  sorted := by
    rw [← pairwise_map_unplaced (R := (· < ·)), map_unplaced_placed, pairwise_map_unplaced]
    exact h.sorted_sortByKey
  index i p hp := by
    rw [get?, List.getElem?_mapIdx, Option.map_eq_some_iff] at hp
    obtain ⟨q, -, rfl⟩ := hp
    rfl

theorem Lists.get?_eq (h : c.Lists parties) (i : ℕ) :
    c.get? i = ((c.members.map PartyId.unplaced)[i]?).map fun p => { p with index := some i } := by
  rw [List.getElem?_map, Option.map_map]
  change c.get? i = (c.get? i).map _
  cases hp : c.get? i with
  | none => rfl
  | some p =>
      have hindex := h.index i p hp
      obtain ⟨id, moniker, key, index⟩ := p
      obtain rfl : index = some i := hindex
      rfl

/-- There is one way to list parties. -/
theorem Lists.unique (h : c.Lists parties) (h' : c'.Lists parties')
    (hperm : (parties'.map PartyId.unplaced).Perm (parties.map PartyId.unplaced)) : c' = c := by
  -- Sorted lists of the same parties are equal up to positions, and positions are places.
  have hmembers : c'.members.map PartyId.unplaced = c.members.map PartyId.unplaced := by
    have hsorted := (pairwise_map_unplaced (R := (· < ·))).2 h.sorted
    have hsorted' := (pairwise_map_unplaced (R := (· < ·))).2 h'.sorted
    refine List.Perm.eq_of_pairwise (fun p q _ _ hpq hqp => ?_) hsorted' hsorted
      (h'.perm.trans (hperm.trans h.perm.symm))
    exact absurd hpq (lt_asymm hqp)
  obtain ⟨members⟩ := c
  obtain ⟨members'⟩ := c'
  refine congrArg Committee.mk (List.ext_getElem? fun i => ?_)
  exact (h'.get?_eq i).trans ((congrArg _ (congrArg (·[i]?) hmembers)).trans (h.get?_eq i).symm)

/-- A list is made into the one committee that lists its parties. -/
theorem ofList_eq_ok_iff_lists : ofList parties = .ok c ↔ Eligible parties ∧ c.Lists parties := by
  rw [ofList_eq_ok_iff]
  constructor
  · rintro ⟨hne, hzero, hnodup, rfl⟩
    have heligible := eligible_iff.2 ⟨hne, hzero, hnodup⟩
    exact ⟨heligible, heligible.lists⟩
  · rintro ⟨heligible, hlists⟩
    obtain ⟨hne, hzero, hnodup⟩ := eligible_iff.1 heligible
    exact ⟨hne, hzero, hnodup, heligible.lists.unique hlists (.refl _)⟩

theorem eligible_map_unplaced : Eligible (parties.map PartyId.unplaced) ↔ Eligible parties := by
  have hne : parties.map PartyId.unplaced ≠ [] ↔ parties ≠ [] := not_congr List.map_eq_nil_iff
  have hzero : (∀ p ∈ parties.map PartyId.unplaced, p.key % groupOrder ≠ 0) ↔
      ∀ p ∈ parties, p.key % groupOrder ≠ 0 := List.forall_mem_map
  have hdistinct : ((parties.map PartyId.unplaced).Pairwise fun p q =>
      p.key % groupOrder ≠ q.key % groupOrder) ↔
        parties.Pairwise fun p q => p.key % groupOrder ≠ q.key % groupOrder :=
    pairwise_map_unplaced (R := fun k l => k % groupOrder ≠ l % groupOrder)
  exact ⟨fun h => ⟨hne.1 h.ne_nil, hzero.1 h.ne_zero, hdistinct.1 h.distinct⟩,
    fun h => ⟨hne.2 h.ne_nil, hzero.2 h.ne_zero, hdistinct.2 h.distinct⟩⟩

theorem Eligible.of_perm (h : Eligible parties) (hperm : parties'.Perm parties) :
    Eligible parties' where
  ne_nil hnil := h.ne_nil (hnil ▸ hperm).nil_eq.symm
  ne_zero p hp := h.ne_zero p (hperm.mem_iff.1 hp)
  distinct := (hperm.pairwise_iff Ne.symm).2 h.distinct

theorem ofList_of_perm (h : ofList parties = .ok c)
    (hperm : (parties'.map PartyId.unplaced).Perm (parties.map PartyId.unplaced)) :
    ofList parties' = .ok c := by
  obtain ⟨heligible, hlists⟩ := ofList_eq_ok_iff_lists.1 h
  refine ofList_eq_ok_iff_lists.2 ⟨?_, hlists.perm.trans hperm.symm, hlists.sorted, hlists.index⟩
  rw [← eligible_map_unplaced] at heligible ⊢
  exact heligible.of_perm hperm

/-! ## Finding members -/

namespace Proper

variable (h : c.Proper)

include h

theorem find?_eq_some_iff {p q : PartyId} : c.find? p = some q ↔ q ∈ c.members ∧ q.SameKey p := by
  constructor
  · intro hq
    exact ⟨List.mem_of_find?_eq_some hq, by simpa using List.find?_some hq⟩
  · rintro ⟨hq, hkey⟩
    obtain ⟨i, hi, rfl⟩ := mem_iff.1 hq
    exact h.find?_eq hi hkey

theorem bind_get?_of_find? {p q : PartyId} (hq : c.find? p = some q) :
    q.index.bind c.get? = some q := by
  obtain ⟨i, hi, rfl⟩ := mem_iff.1 (h.find?_eq_some_iff.1 hq).1
  rw [h.index_member hi]
  exact member_eq hi

theorem seat?_eq_some_iff_find? {p : PartyId} {i : ℕ} :
    c.seat? p = some i ↔ p.index = some i ∧ ∃ q, c.find? p = some q ∧ c.get? i = some q := by
  rw [seat?_eq_some_iff]
  refine and_congr_right fun _ => ⟨?_, ?_⟩
  · rintro ⟨hi, hkey⟩
    exact ⟨c.member i, h.find?_eq hi hkey, member_eq hi⟩
  · rintro ⟨q, hq, hi⟩
    have hlt : i < c.size := (List.getElem?_eq_some_iff.1 hi).1
    obtain rfl := Option.some.inj ((member_eq hlt).symm.trans hi)
    exact ⟨hlt, (h.find?_eq_some_iff.1 hq).2⟩

theorem exclude_of_lt {i : ℕ} (hi : i < c.size) : c.exclude i = c.members.eraseIdx i := by
  have hrange : (List.range c.size).filter (· ≠ i) = (List.range c.size).eraseIdx i := by
    have herase := List.nodup_range.erase_getElem i (by simpa using hi)
    rw [List.getElem_range, List.nodup_range.erase_eq_filter] at herase
    rw [← herase]
    exact List.filter_congr fun j _ => by rw [bne, beq_eq_decide, decide_not]
  rw [h.exclude_eq, hrange, members_eq, ← List.eraseIdx_map]

theorem exclude_of_le {i : ℕ} (hi : c.size ≤ i) : c.exclude i = c.members := by
  rw [exclude, List.filter_eq_self]
  intro p hp
  obtain ⟨j, hj, rfl⟩ := mem_iff.1 hp
  rw [h.index_member hj]
  simp only [ne_eq, Option.some.injEq, decide_eq_true_eq]
  omega

end Proper

/-! ## The committee as a whole -/

/-- The committee is the one for the given parties, and their keys lead to its members. -/
structure Canonical (c : Committee) (parties : List PartyId) : Prop where
  lists : c.Lists parties
  /-- The evaluation points of the members, in the order of their keys. -/
  points : c.points = .ok (c.members.map pointOf)
  points_ne_zero : ∀ x ∈ c.members.map pointOf, x ≠ 0
  points_nodup : (c.members.map pointOf).Nodup
  /-- Every order of the parties gives this committee. -/
  ofList_of_perm : ∀ parties', parties'.Perm parties → ofList parties' = .ok c
  ofList_members : ofList c.members = .ok c
  /-- Who has the key of a party is found, and nobody else has it. -/
  find?_eq_some_iff : ∀ p q, c.find? p = some q ↔ q ∈ c.members ∧ q.SameKey p
  get?_of_find? : ∀ p q, c.find? p = some q → q.index.bind c.get? = some q
  exclude_of_lt : ∀ i < c.size, c.exclude i = c.members.eraseIdx i
  exclude_of_le : ∀ i, c.size ≤ i → c.exclude i = c.members
  /-- A party sits where the member with its key stands, if it claims to. -/
  seat?_eq_some_iff : ∀ p i, c.seat? p = some i ↔
    p.index = some i ∧ ∃ q, c.find? p = some q ∧ c.get? i = some q

/-- Exactly the lists of parties whose keys are distinct evaluation points other than zero make up a
committee, and every order of the parties makes up the same one. -/
theorem canonical_of_ofList (parties : List PartyId) :
    ((∃ c, ofList parties = .ok c) ↔ Eligible parties) ∧
      ∀ c, ofList parties = .ok c → c.Canonical parties := by
  constructor
  · constructor
    · rintro ⟨c, hc⟩
      exact (ofList_eq_ok_iff_lists.1 hc).1
    · intro heligible
      exact ⟨_, ofList_eq_ok_iff_lists.2 ⟨heligible, heligible.lists⟩⟩
  · intro c hc
    obtain ⟨-, hlists⟩ := ofList_eq_ok_iff_lists.1 hc
    have hproper := proper_of_ofList hc
    exact
      { lists := hlists
        points := hproper.points_eq
        points_ne_zero := List.forall_mem_map.2 hproper.ne_zero
        points_nodup := hproper.nodup
        ofList_of_perm := fun parties' hperm => Committee.ofList_of_perm hc (hperm.map _)
        ofList_members := Committee.ofList_of_perm hc hlists.perm
        find?_eq_some_iff := fun _ _ => hproper.find?_eq_some_iff
        get?_of_find? := fun _ _ => hproper.bind_get?_of_find?
        exclude_of_lt := fun _ => hproper.exclude_of_lt
        exclude_of_le := fun _ => hproper.exclude_of_le
        seat?_eq_some_iff := fun _ _ => hproper.seat?_eq_some_iff_find? }

theorem canonical_of_ofList_pair :
    Eligible [⟨"b", "B", groupOrder + 2, some 0⟩, ⟨"a", "A", 5, some 7⟩] ∧
      Canonical ⟨[⟨"a", "A", 5, some 0⟩, ⟨"b", "B", groupOrder + 2, some 1⟩]⟩
        [⟨"b", "B", groupOrder + 2, some 0⟩, ⟨"a", "A", 5, some 7⟩] ∧
      ¬ ∃ c, ofList [⟨"b", "B", groupOrder + 5, none⟩, ⟨"a", "A", 5, none⟩] = .ok c := by
  have hpair : ofList [⟨"b", "B", groupOrder + 2, some 0⟩, ⟨"a", "A", 5, some 7⟩] =
      .ok ⟨[⟨"a", "A", 5, some 0⟩, ⟨"b", "B", groupOrder + 2, some 1⟩]⟩ := by decide +kernel
  refine ⟨(canonical_of_ofList _).1.1 ⟨_, hpair⟩, (canonical_of_ofList _).2 _ hpair, fun hc => ?_⟩
  have hdistinct := ((canonical_of_ofList _).1.1 hc).distinct
  exact absurd hdistinct (by decide)

end Committee

end ThresholdKeys
