import Mathlib
import ThresholdKeys.Error

/-!
# Results of lists

A computation over a list succeeds exactly when it succeeds at every element, and checks of its
elements blame nobody exactly when all of them pass.
-/

namespace ThresholdKeys

namespace Result

variable {α β : Type}

@[simp] theorem ok_bind (a : α) (f : α → Result β) : (Except.ok a : Result α) >>= f = f a := rfl

@[simp] theorem error_bind (e : Error) (f : α → Result β) :
    (Except.error e : Result α) >>= f = .error e := rfl

@[simp] theorem pure_eq_ok (a : α) : (pure a : Result α) = .ok a := rfl

theorem bind_eq_ok_iff {x : Result α} {f : α → Result β} {b : β} :
    x >>= f = .ok b ↔ ∃ a, x = .ok a ∧ f a = .ok b := by
  cases x <;> simp

theorem bind_eq_error_iff {x : Result α} {f : α → Result β} {e : Error} :
    x >>= f = .error e ↔ x = .error e ∨ ∃ a, x = .ok a ∧ f a = .error e := by
  cases x <;> simp

theorem map_eq_ok_iff {x : Result α} {f : α → β} {b : β} :
    x.map f = .ok b ↔ ∃ a, x = .ok a ∧ f a = b := by
  cases x <;> simp [Except.map]

theorem map_eq_error_iff {x : Result α} {f : α → β} {e : Error} :
    x.map f = .error e ↔ x = .error e := by
  cases x <;> simp [Except.map]

theorem mapM_cons (f : α → Result β) (a : α) (as : List α) :
    (a :: as).mapM f = f a >>= fun b => as.mapM f >>= fun bs => .ok (b :: bs) :=
  List.mapM_cons

theorem mapM_congr {f g : α → Result β} {as : List α} (h : ∀ a ∈ as, f a = g a) :
    as.mapM f = as.mapM g := by
  induction as with
  | nil => rfl
  | cons a as ih =>
      obtain ⟨ha, has⟩ := List.forall_mem_cons.1 h
      rw [mapM_cons, mapM_cons, ha, ih has]

theorem mapM_eq_ok_iff {f : α → Result β} {as : List α} {bs : List β} :
    as.mapM f = .ok bs ↔ List.Forall₂ (fun a b => f a = .ok b) as bs := by
  induction as generalizing bs with
  | nil => cases bs <;> simp [List.mapM_nil]
  | cons a as ih =>
      simp only [mapM_cons, bind_eq_ok_iff, Except.ok.injEq, ih]
      constructor
      · rintro ⟨b, hb, bs, hbs, rfl⟩
        exact .cons hb hbs
      · rintro (_ | ⟨hb, hbs⟩)
        exact ⟨_, hb, _, hbs, rfl⟩

theorem mapM_eq_ok_map {f : α → Result β} {g : α → β} {as : List α}
    (h : ∀ a ∈ as, f a = .ok (g a)) : as.mapM f = .ok (as.map g) := by
  rw [mapM_eq_ok_iff, List.forall₂_map_right_iff, List.forall₂_same]
  exact h

theorem exists_mapM_eq_ok {f : α → Result β} {as : List α} (h : ∀ a ∈ as, ∃ b, f a = .ok b) :
    ∃ bs, as.mapM f = .ok bs := by
  induction as with
  | nil => exact ⟨[], rfl⟩
  | cons a as ih =>
      obtain ⟨ha, has⟩ := List.forall_mem_cons.1 h
      obtain ⟨b, hb⟩ := ha
      obtain ⟨bs, hbs⟩ := ih has
      exact ⟨b :: bs, by rw [mapM_cons, hb, hbs]; rfl⟩

/-- If there is one error that elements can fail with, the list fails with it. -/
theorem mapM_eq_error {f : α → Result β} {e : Error} {as : List α}
    (herror : ∀ a ∈ as, ∀ e', f a = .error e' → e' = e) (hfails : ∃ a ∈ as, f a = .error e) :
    as.mapM f = .error e := by
  induction as with
  | nil =>
      obtain ⟨a, ha, -⟩ := hfails
      exact absurd ha List.not_mem_nil
  | cons a as ih =>
      obtain ⟨ha, has⟩ := List.forall_mem_cons.1 herror
      rw [mapM_cons]
      cases hfa : f a with
      | error e' => rw [error_bind, ha e' hfa]
      | ok b =>
          obtain ⟨a', ha', hfa'⟩ := hfails
          have hrest : a' ∈ as := by
            rcases List.mem_cons.1 ha' with rfl | ha'
            · rw [hfa] at hfa'
              cases hfa'
            · exact ha'
          rw [ok_bind, ih has ⟨a', hrest, hfa'⟩, error_bind]

theorem length_of_mapM {f : α → Result β} {as : List α} {bs : List β}
    (h : as.mapM f = .ok bs) : bs.length = as.length :=
  (mapM_eq_ok_iff.1 h).length_eq.symm

theorem getElem?_of_mapM {f : α → Result β} {as : List α} {bs : List β}
    (h : as.mapM f = .ok bs) {i : ℕ} {b : β} (hb : bs[i]? = some b) :
    ∃ a, as[i]? = some a ∧ f a = .ok b := by
  have hall := mapM_eq_ok_iff.1 h
  obtain ⟨hi, rfl⟩ := List.getElem?_eq_some_iff.1 hb
  have hi' : i < as.length := hall.length_eq ▸ hi
  exact ⟨as[i], List.getElem?_eq_getElem hi', (List.forall₂_iff_get.1 hall).2 i hi' hi⟩

theorem exists_eq_ok_of_mapM {f : α → Result β} {as : List α} {bs : List β}
    (h : as.mapM f = .ok bs) {a : α} (ha : a ∈ as) : ∃ b, f a = .ok b := by
  have hall := mapM_eq_ok_iff.1 h
  obtain ⟨i, hi, rfl⟩ := List.mem_iff_getElem.1 ha
  have hi' : i < bs.length := hall.length_eq ▸ hi
  exact ⟨bs[i], (List.forall₂_iff_get.1 hall).2 i hi hi'⟩

end Result

/-! ## Checks -/

/-- Checks that blame nobody have all passed. -/
theorem filterMap_isNone_eq_nil_iff {α β : Type} (checks : List (Option α)) (names : List β)
    (hlen : checks.length = names.length) :
    ((checks.zip names).filterMap fun (check, p) => if check.isNone then some p else none) = [] ↔
      ∃ found : List α, checks = found.map some := by
  induction checks generalizing names with
  | nil => simp
  | cons check checks ih =>
      cases names with
      | nil => cases hlen
      | cons p names =>
          have hrest := ih names (Nat.succ.inj hlen)
          cases check with
          | none =>
              refine ⟨fun h => ?_, fun ⟨found, h⟩ => ?_⟩
              · simp at h
              · cases found <;> cases h
          | some a =>
              simp only [List.zip_cons_cons, Option.isNone_some, Bool.false_eq_true, if_false,
                List.filterMap_cons_none, hrest]
              constructor
              · rintro ⟨found, rfl⟩
                exact ⟨a :: found, rfl⟩
              · rintro ⟨found, h⟩
                cases found with
                | nil => cases h
                | cons b found => exact ⟨found, (List.cons.inj h).2⟩

theorem filterMap_id_map_some {α : Type} (found : List α) : (found.map some).filterMap id = found := by
  rw [List.filterMap_map, Function.id_comp, List.filterMap_some]

/-- The places of which something is true, each once and in order. -/
structure Enumerates (js : List ℕ) (P : ℕ → Prop) : Prop where
  sorted : js.Pairwise (· < ·)
  mem_iff : ∀ j, j ∈ js ↔ P j

theorem Enumerates.congr {js : List ℕ} {P Q : ℕ → Prop} (h : Enumerates js P)
    (hPQ : ∀ j, P j ↔ Q j) : Enumerates js Q :=
  ⟨h.sorted, fun j => (h.mem_iff j).trans (hPQ j)⟩

theorem Enumerates.nodup {js : List ℕ} {P : ℕ → Prop} (h : Enumerates js P) : js.Nodup :=
  h.sorted.imp Nat.ne_of_lt

/-- Checks blame exactly those at whose places they fail. -/
theorem exists_enumerates_isNone {α β : Type} (checks : List (Option α)) (name : ℕ → β) :
    ∃ js, Enumerates js (fun j => checks[j]? = some none) ∧
      ((checks.zip ((List.range checks.length).map name)).filterMap fun (check, p) =>
        if check.isNone then some p else none) = js.map name := by
  refine ⟨(List.range checks.length).filter fun j => checks[j]?.join.isNone,
    ⟨List.pairwise_lt_range.filter _, fun j => ?_⟩, ?_⟩
  · rw [List.mem_filter, List.mem_range]
    by_cases hj : j < checks.length
    · simp [hj]
    · simp [hj]
  · have hzip : checks.zip ((List.range checks.length).map name) =
        (List.range checks.length).map fun j => (checks[j]?.join, name j) := by
      apply List.ext_getElem
      · simp
      · intro j hj _
        have hj' : j < checks.length := by simpa using hj
        simp [hj']
    rw [hzip, List.filterMap_map, ← List.filterMap_eq_map, List.filterMap_filter]
    rfl

theorem mapIdx_eq_map_some_iff {α β : Type} {f : ℕ → α → Option β} {as : List α} {found : List β} :
    as.mapIdx f = found.map some ↔ found.length = as.length ∧
      ∀ j a b, as[j]? = some a → found[j]? = some b → f j a = some b := by
  constructor
  · intro h
    have hlen := congrArg List.length h
    rw [List.length_mapIdx, List.length_map] at hlen
    refine ⟨hlen.symm, fun j a b ha hb => ?_⟩
    have hj := congrArg (·[j]?) h
    simpa only [List.getElem?_mapIdx, List.getElem?_map, ha, hb, Option.map_some,
      Option.some.injEq] using hj
  · rintro ⟨hlen, h⟩
    apply List.ext_getElem
    · rw [List.length_mapIdx, List.length_map, hlen]
    · intro j hj hj'
      rw [List.length_mapIdx] at hj
      rw [List.length_map] at hj'
      rw [List.getElem_mapIdx, List.getElem_map]
      exact h j _ _ (List.getElem?_eq_getElem hj) (List.getElem?_eq_getElem hj')

end ThresholdKeys
