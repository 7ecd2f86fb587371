import Mathlib
import ThresholdKeys.Engine.Slots

/-!
# What slots keep

An item that came the way its kind has to come stays in its slot whatever else comes in. Slots that
agree on such items do so after any further items too.
-/

namespace ThresholdKeys.Slots

variable {α : Type} {slots : Slots α} {byBroadcast : Bool}

@[simp] theorem length_empty (size : ℕ) : (empty size : Slots α).length = size :=
  List.length_replicate

@[simp] theorem length_store (slots : Slots α) (byBroadcast : Bool) (j : ℕ) (new : Received α) :
    (slots.store byBroadcast j new).length = slots.length :=
  List.length_modify ..

@[simp] theorem length_put (slots : Slots α) (j : ℕ) (new : Received α) :
    (slots.put j new).length = slots.length :=
  List.length_set

@[simp] theorem get?_empty (size j : ℕ) : (empty size : Slots α).get? j = none := by
  unfold get? empty
  rw [List.getElem?_replicate]
  split <;> rfl

theorem get?_store {i : ℕ} (hi : i < slots.length) (new : Received α) (j : ℕ) :
    (slots.store byBroadcast i new).get? j =
      if i = j then some (keep byBroadcast new (slots.get? j)) else slots.get? j := by
  unfold get? store
  rw [List.getElem?_modify]
  by_cases hij : i = j
  · subst hij
    simp [hi]
  · simp [hij]

theorem get?_put {i : ℕ} (hi : i < slots.length) (new : Received α) (j : ℕ) :
    (slots.put i new).get? j = if i = j then some new else slots.get? j := by
  unfold get? put
  rw [List.getElem?_set]
  by_cases hij : i = j
  · subst hij
    simp [hi]
  · simp [hij]

theorem store_of_length_le {i : ℕ} (hi : slots.length ≤ i) (new : Received α) :
    slots.store byBroadcast i new = slots :=
  List.modify_eq_self hi

theorem put_of_length_le {i : ℕ} (hi : slots.length ≤ i) (new : Received α) :
    slots.put i new = slots :=
  List.set_eq_of_length_le hi

theorem admitted?_eq_some_iff {j : ℕ} {x : α} :
    slots.admitted? byBroadcast j = some x ↔ slots.get? j = some ⟨x, byBroadcast⟩ := by
  unfold admitted?
  cases slots.get? j with
  | none => simp
  | some held =>
      obtain ⟨y, b⟩ := held
      simp only [Option.ite_none_right_eq_some, Option.some.injEq, Received.mk.injEq, and_comm]

theorem item?_of_admitted? {j : ℕ} {x : α} (h : slots.admitted? byBroadcast j = some x) :
    slots.item? j = some x := by
  rw [item?, admitted?_eq_some_iff.1 h, Option.map_some]

theorem admitted?_eq_some_of_item? {j : ℕ} {x : α}
    (hj : (slots.admitted? byBroadcast j).isSome = true) (hx : slots.item? j = some x) :
    slots.admitted? byBroadcast j = some x := by
  obtain ⟨y, hy⟩ := Option.isSome_iff_exists.1 hj
  rw [hy, ← hx, item?_of_admitted? hy]

theorem item?_store {i j : ℕ} {new : Received α} {x : α}
    (h : (slots.store byBroadcast i new).item? j = some x) :
    slots.item? j = some x ∨ i = j ∧ new.item = x := by
  by_cases hi : i < slots.length
  · rw [item?, get?_store hi] at h
    by_cases hij : i = j
    · rw [if_pos hij, Option.map_some, Option.some.injEq] at h
      cases hheld : slots.get? j with
      | none => exact Or.inr ⟨hij, by rwa [hheld] at h⟩
      | some held =>
          rw [hheld, keep] at h
          split at h
          · exact Or.inl (by rw [item?, hheld, Option.map_some, h])
          · exact Or.inr ⟨hij, h⟩
    · rw [if_neg hij] at h
      exact Or.inl h
  · rw [store_of_length_le (Nat.not_lt.1 hi)] at h
    exact Or.inl h

theorem item?_put {i j : ℕ} {new : Received α} {x : α}
    (h : (slots.put i new).item? j = some x) :
    slots.item? j = some x ∨ i = j ∧ new.item = x := by
  by_cases hi : i < slots.length
  · rw [item?, get?_put hi] at h
    by_cases hij : i = j
    · rw [if_pos hij, Option.map_some, Option.some.injEq] at h
      exact Or.inr ⟨hij, h⟩
    · rw [if_neg hij] at h
      exact Or.inl h
  · rw [put_of_length_le (Nat.not_lt.1 hi)] at h
    exact Or.inl h

theorem admitted?_put {i : ℕ} (hi : i < slots.length) (x : α) :
    (slots.put i ⟨x, byBroadcast⟩).admitted? byBroadcast i = some x := by
  rw [admitted?_eq_some_iff, get?_put hi, if_pos rfl]

/-- Slots that keep what was admitted agree on it as an item. -/
theorem item?_eq_of_admitted? {slots' : Slots α} {j : ℕ}
    (h : ∀ {x}, slots.admitted? byBroadcast j = some x → slots'.admitted? byBroadcast j = some x)
    (hj : (slots.admitted? byBroadcast j).isSome = true) : slots'.item? j = slots.item? j := by
  obtain ⟨x, hx⟩ := Option.isSome_iff_exists.1 hj
  rw [item?_of_admitted? hx, item?_of_admitted? (h hx)]

theorem admitted?_store {j : ℕ} {x : α} (h : slots.admitted? byBroadcast j = some x) (i : ℕ)
    (new : Received α) : (slots.store byBroadcast i new).admitted? byBroadcast j = some x := by
  by_cases hi : i < slots.length
  · rw [admitted?_eq_some_iff] at h ⊢
    rw [get?_store hi, h]
    by_cases hij : i = j
    · simp [hij, keep]
    · simp [hij]
  · rwa [store_of_length_le (Nat.not_lt.1 hi)]

/-! ## Any order of arrival -/

theorem store_of_admitted? {j : ℕ} (h : (slots.admitted? byBroadcast j).isSome = true)
    (new : Received α) : slots.store byBroadcast j new = slots := by
  obtain ⟨x, hx⟩ := Option.isSome_iff_exists.1 h
  have hget := admitted?_eq_some_iff.1 hx
  unfold get? at hget
  apply List.ext_getElem?
  intro i
  rw [store, List.getElem?_modify]
  by_cases hji : j = i
  · subst hji
    cases hslot : slots[j]? with
    | none => rfl
    | some slot =>
        rw [hslot, Option.join_some] at hget
        simp [hget, keep]
  · simp [hji]

theorem store_comm {i j : ℕ} (hij : i ≠ j) (slots : Slots α) (new new' : Received α) :
    (slots.store byBroadcast i new).store byBroadcast j new' =
      (slots.store byBroadcast j new').store byBroadcast i new := by
  apply List.ext_getElem?
  intro l
  simp only [store, List.getElem?_modify]
  by_cases hi : i = l
  · subst hi
    simp [Ne.symm hij]
  · simp [hi]

/-- The own item takes its slot, whether before or after a message for it. -/
theorem put_store (slots : Slots α) (i j : ℕ) (x : α) (new : Received α) :
    (slots.put j ⟨x, byBroadcast⟩).store byBroadcast i new =
      (slots.store byBroadcast i new).put j ⟨x, byBroadcast⟩ := by
  apply List.ext_getElem?
  intro l
  simp only [store, put, List.getElem?_modify, List.getElem?_set, List.length_modify]
  by_cases hj : j = l
  · subst hj
    by_cases hlt : j < slots.length <;> simp [hlt, keep]
  · simp [hj]

theorem isSome_admitted?_put {j : ℕ} (h : (slots.admitted? byBroadcast j).isSome = true) (i : ℕ)
    (x : α) : ((slots.put i ⟨x, byBroadcast⟩).admitted? byBroadcast j).isSome = true := by
  by_cases hi : i < slots.length
  · by_cases hij : i = j
    · rw [← hij, admitted?_put hi]
      rfl
    · rwa [admitted?, get?_put hi, if_neg hij]
  · rwa [put_of_length_le (Nat.not_lt.1 hi)]

/-- The slots without what came the wrong way. -/
def strip (slots : Slots α) (byBroadcast : Bool) : Slots α :=
  slots.map (Option.filter fun held => held.isBroadcast = byBroadcast)

@[simp] theorem length_strip (slots : Slots α) (byBroadcast : Bool) :
    (slots.strip byBroadcast).length = slots.length :=
  List.length_map _

@[simp] theorem admitted?_strip (slots : Slots α) (byBroadcast : Bool) (j : ℕ) :
    (slots.strip byBroadcast).admitted? byBroadcast j = slots.admitted? byBroadcast j := by
  unfold admitted? get? strip
  rw [List.getElem?_map]
  rcases slots[j]? with _ | _ | ⟨x, b⟩
  · rfl
  · rfl
  · by_cases hb : b = byBroadcast <;> simp [Option.filter, hb]

theorem strip_put (slots : Slots α) (j : ℕ) (x : α) :
    (slots.put j ⟨x, byBroadcast⟩).strip byBroadcast =
      (slots.strip byBroadcast).put j ⟨x, byBroadcast⟩ := by
  unfold put strip
  rw [List.map_set]
  simp [Option.filter]

theorem filter_keep (new : Received α) (slot : Option (Received α)) :
    (some (keep byBroadcast new slot)).filter (fun held => held.isBroadcast = byBroadcast) =
      if new.isBroadcast = byBroadcast then
        some (keep byBroadcast new (slot.filter fun held => held.isBroadcast = byBroadcast))
      else slot.filter fun held => held.isBroadcast = byBroadcast := by
  rcases slot with _ | held
  · by_cases hnew : new.isBroadcast = byBroadcast <;> simp [keep, Option.filter, hnew]
  · by_cases hheld : held.isBroadcast = byBroadcast
    · simp [keep, Option.filter, hheld]
    · by_cases hnew : new.isBroadcast = byBroadcast <;> simp [keep, Option.filter, hheld, hnew]

/-- What comes the wrong way is as good as nothing. -/
theorem strip_store (slots : Slots α) (i : ℕ) (new : Received α) :
    (slots.store byBroadcast i new).strip byBroadcast =
      if new.isBroadcast = byBroadcast then (slots.strip byBroadcast).store byBroadcast i new
      else slots.strip byBroadcast := by
  split
  all_goals
    rename_i hnew
    apply List.ext_getElem?
    intro l
    simp only [strip, store, List.getElem?_map, List.getElem?_modify]
    by_cases hil : i = l
    · cases slots[l]? with
      | none => rfl
      | some slot => simp [hil, filter_keep, hnew]
    · simp [hil]

/-- Items may change places unless both came the right way for one slot and differ. -/
theorem strip_store_comm (slots : Slots α) {i j : ℕ} {new new' : Received α}
    (h : i = j → new.isBroadcast = byBroadcast → new'.isBroadcast = byBroadcast →
      new.item = new'.item) :
    ((slots.store byBroadcast i new).store byBroadcast j new').strip byBroadcast =
      ((slots.store byBroadcast j new').store byBroadcast i new).strip byBroadcast := by
  by_cases hij : i = j
  · simp only [strip_store]
    by_cases hnew : new.isBroadcast = byBroadcast
    · by_cases hnew' : new'.isBroadcast = byBroadcast
      · obtain ⟨x, b⟩ := new
        obtain ⟨x', b'⟩ := new'
        obtain rfl : x = x' := h hij hnew hnew'
        obtain rfl : b = b' := hnew.trans hnew'.symm
        rw [hij]
      · rw [if_neg hnew', if_neg hnew']
    · rw [if_neg hnew, if_neg hnew]
  · rw [store_comm hij]

/-! ## Slots for known items -/

/-- The slots of which `there` speaks hold the given items, all others are empty. -/
structure Filled (slots : Slots α) (size : ℕ) (byBroadcast : Bool) (item : ℕ → α)
    (there : ℕ → Prop) : Prop where
  length : slots.length = size
  full : ∀ j < size, there j → slots.get? j = some ⟨item j, byBroadcast⟩
  blank : ∀ j < size, ¬ there j → slots.get? j = none

section Filled

variable {size : ℕ} {item : ℕ → α} {there : ℕ → Prop}

theorem filled_empty (size : ℕ) (byBroadcast : Bool) (item : ℕ → α) (hthere : ∀ j, ¬ there j) :
    (empty size : Slots α).Filled size byBroadcast item there where
  length := length_empty size
  full j _ hj := absurd hj (hthere j)
  blank j _ _ := get?_empty size j

theorem Filled.congr (h : slots.Filled size byBroadcast item there) {there' : ℕ → Prop}
    (hthere : ∀ j < size, there j ↔ there' j) : slots.Filled size byBroadcast item there' where
  length := h.length
  full j hj ht := h.full j hj ((hthere j hj).2 ht)
  blank j hj ht := h.blank j hj fun h => ht ((hthere j hj).1 h)

theorem Filled.put (h : slots.Filled size byBroadcast item there) {i : ℕ} (hi : i < size) :
    (slots.put i ⟨item i, byBroadcast⟩).Filled size byBroadcast item fun j => j = i ∨ there j where
  length := (length_put ..).trans h.length
  full j hj ht := by
    rw [get?_put (h.length.symm ▸ hi)]
    by_cases hij : i = j
    · rw [if_pos hij, hij]
    · rw [if_neg hij]
      exact h.full j hj (ht.resolve_left (Ne.symm hij))
  blank j hj ht := by
    obtain ⟨hij, ht⟩ := not_or.1 ht
    rw [get?_put (h.length.symm ▸ hi), if_neg (Ne.symm hij)]
    exact h.blank j hj ht

theorem Filled.store (h : slots.Filled size byBroadcast item there) {i : ℕ} (hi : i < size)
    (hnew : ¬ there i) : (slots.store byBroadcast i ⟨item i, byBroadcast⟩).Filled size byBroadcast
      item fun j => j = i ∨ there j where
  length := (length_store ..).trans h.length
  full j hj ht := by
    rw [get?_store (h.length.symm ▸ hi)]
    by_cases hij : i = j
    · subst hij
      rw [if_pos rfl, h.blank i hi hnew]
      rfl
    · rw [if_neg hij]
      exact h.full j hj (ht.resolve_left (Ne.symm hij))
  blank j hj ht := by
    obtain ⟨hij, ht⟩ := not_or.1 ht
    rw [get?_store (h.length.symm ▸ hi), if_neg (Ne.symm hij)]
    exact h.blank j hj ht

theorem Filled.putIf (h : slots.Filled size byBroadcast item there) {i : ℕ} (hi : i < size)
    (own : Bool) : (if own then slots.put i ⟨item i, byBroadcast⟩ else slots).Filled size
      byBroadcast item fun j => (j = i ∧ own = true) ∨ there j := by
  cases own with
  | true => exact (h.put hi).congr fun j _ => by simp
  | false => exact h.congr fun j _ => by simp

theorem Filled.arrive {μ : Type} {own : ℕ → Prop} {message : ℕ → μ} {log : List μ}
    (h : slots.Filled size byBroadcast item fun j => own j ∨ message j ∈ log) {i : ℕ} (hi : i < size)
    (hown : ¬ own i) (hnew : message i ∉ log)
    (hinj : ∀ j < size, message j = message i → j = i) :
    (slots.store byBroadcast i ⟨item i, byBroadcast⟩).Filled size byBroadcast item
      fun j => own j ∨ message j ∈ log ++ [message i] := by
  refine (h.store hi (not_or.2 ⟨hown, hnew⟩)).congr fun j hj => ?_
  have hsame : message j = message i ↔ j = i := ⟨hinj j hj, fun hji => hji ▸ rfl⟩
  rw [List.mem_append, List.mem_singleton, hsame]
  tauto

theorem Filled.ignore {μ : Type} {own : ℕ → Prop} {message : ℕ → μ} {log : List μ}
    (h : slots.Filled size byBroadcast item fun j => own j ∨ message j ∈ log) {m : μ}
    (hother : ∀ j, message j ≠ m) :
    slots.Filled size byBroadcast item fun j => own j ∨ message j ∈ log ++ [m] :=
  h.congr fun j _ => by simp [hother j]

theorem Filled.admitted? (h : slots.Filled size byBroadcast item there) {j : ℕ} (hj : j < size)
    (ht : there j) : slots.admitted? byBroadcast j = some (item j) :=
  admitted?_eq_some_iff.2 (h.full j hj ht)

theorem Filled.item? (h : slots.Filled size byBroadcast item there) {j : ℕ} (hj : j < size)
    (ht : there j) : slots.item? j = some (item j) :=
  item?_of_admitted? (h.admitted? hj ht)

theorem Filled.isSome_admitted?_iff (h : slots.Filled size byBroadcast item there) {j : ℕ}
    (hj : j < size) : (slots.admitted? byBroadcast j).isSome = true ↔ there j := by
  constructor
  · intro hsome
    by_contra ht
    rw [Slots.admitted?, h.blank j hj ht] at hsome
    cases hsome
  · intro ht
    rw [h.admitted? hj ht]
    rfl

end Filled

/-! ## Slots for whatever comes -/

theorem admitted?_put_of_ne {i j : ℕ} (hij : i ≠ j) (slots : Slots α) (new : Received α) :
    (slots.put i new).admitted? byBroadcast j = slots.admitted? byBroadcast j := by
  by_cases hi : i < slots.length
  · rw [admitted?, get?_put hi, if_neg hij, admitted?]
  · rw [put_of_length_le (Nat.not_lt.1 hi)]

theorem isSome_admitted?_store {i : ℕ} (hi : i < slots.length) (new : Received α) (j : ℕ) :
    ((slots.store byBroadcast i new).admitted? byBroadcast j).isSome = true ↔
      (slots.admitted? byBroadcast j).isSome = true ∨ i = j ∧ new.isBroadcast = byBroadcast := by
  unfold admitted?
  rw [get?_store hi]
  by_cases hij : i = j
  · rcases slots.get? j with _ | held
    · simp [hij, keep]
    · by_cases hheld : held.isBroadcast = byBroadcast <;> simp [hij, keep, hheld]
  · simp [hij]

/-- But for the own place, something admitted is in the slots just where messages of the log have
brought it. -/
structure Gathers {μ : Type} (slots : Slots α) (size : ℕ) (byBroadcast : Bool) (own : ℕ → Prop)
    (brings : μ → ℕ → Prop) (log : List μ) : Prop where
  length : slots.length = size
  isSome_iff : ∀ j < size, ¬ own j →
    ((slots.admitted? byBroadcast j).isSome = true ↔ ∃ m ∈ log, brings m j)

section Gathers

variable {μ : Type} {size : ℕ} {own : ℕ → Prop} {brings : μ → ℕ → Prop} {log : List μ}

theorem gathers_empty (size : ℕ) (byBroadcast : Bool) (own : ℕ → Prop) (brings : μ → ℕ → Prop) :
    (empty size : Slots α).Gathers size byBroadcast own brings [] where
  length := length_empty size
  isSome_iff j _ _ := by simp [admitted?]

theorem Gathers.put (h : slots.Gathers size byBroadcast own brings log) {i : ℕ} (hi : own i)
    (new : Received α) : (slots.put i new).Gathers size byBroadcast own brings log where
  length := (length_put ..).trans h.length
  isSome_iff j hj hown := by
    have hij : i ≠ j := fun hij => hown (hij ▸ hi)
    rw [admitted?_put_of_ne hij]
    exact h.isSome_iff j hj hown

theorem Gathers.store (h : slots.Gathers size byBroadcast own brings log) {i : ℕ} (hi : i < size)
    {new : Received α} {m : μ} (hm : ∀ j, brings m j ↔ i = j ∧ new.isBroadcast = byBroadcast) :
    (slots.store byBroadcast i new).Gathers size byBroadcast own brings (log ++ [m]) where
  length := (length_store ..).trans h.length
  isSome_iff j hj hown := by
    rw [isSome_admitted?_store (h.length.symm ▸ hi), h.isSome_iff j hj hown, ← hm j]
    simp only [List.mem_append, List.mem_singleton, or_and_right, exists_or, exists_eq_left]

theorem Gathers.ignore (h : slots.Gathers size byBroadcast own brings log) {m : μ}
    (hm : ∀ j, ¬ brings m j) : slots.Gathers size byBroadcast own brings (log ++ [m]) where
  length := h.length
  isSome_iff j hj hown := by
    rw [h.isSome_iff j hj hown]
    simp only [List.mem_append, List.mem_singleton, or_and_right, exists_or, exists_eq_left, hm,
      or_false]

end Gathers

end ThresholdKeys.Slots
