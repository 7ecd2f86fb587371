import Mathlib
import ThresholdKeys.Party.Committee
import ThresholdKeys.Proofs.Engine.Deferral
import ThresholdKeys.Proofs.Engine.Slots
import ThresholdKeys.Proofs.Result

/-!
# What slots hold in the end

A message that a party has a use for goes to the slot of its kind and of its sender's place in the
committee that it speaks for. Whatever is taken up, a slot keeps the first message that comes the
right way, and until one comes the last that came the wrong way. So a message may come twice, and
messages for different slots may change places.
-/

namespace ThresholdKeys

namespace Slots

variable {α : Type} {byBroadcast : Bool}

def settled (byBroadcast : Bool) (held : Option (Received α)) (arrivals : List (Received α)) :
    Option (Received α) :=
  if held.any (·.isBroadcast = byBroadcast) then held
  else (arrivals.find? (·.isBroadcast = byBroadcast)).or (arrivals.getLast?.or held)

@[simp] theorem settled_nil (held : Option (Received α)) : settled byBroadcast held [] = held := by
  unfold settled
  split <;> rfl

theorem settled_cons (held : Option (Received α)) (new : Received α)
    (arrivals : List (Received α)) : settled byBroadcast held (new :: arrivals) =
      settled byBroadcast (some (keep byBroadcast new held)) arrivals := by
  have hlast : ((new :: arrivals).getLast?).or held = arrivals.getLast?.or (some new) := by
    rw [List.getLast?_cons, Option.some_or, Option.or_some]
  -- A slot that holds nothing right is as good as one that holds the new item.
  have hnew : settled byBroadcast (some new) arrivals =
      ((new :: arrivals).find? (·.isBroadcast = byBroadcast)).or
        ((new :: arrivals).getLast?.or held) := by
    by_cases hright : new.isBroadcast = byBroadcast
    · simp [settled, hright]
    · simp [settled, hright, hlast]
  rcases held with _ | held
  · exact hnew.symm
  · by_cases hright : held.isBroadcast = byBroadcast
    · simp [settled, keep, hright]
    · rw [keep, if_neg hright, hnew]
      simp [settled, hright]

theorem keep_keep (new : Received α) (held : Option (Received α)) :
    keep byBroadcast new (some (keep byBroadcast new held)) = keep byBroadcast new held := by
  rcases held with _ | held
  · exact ite_self new
  · by_cases hright : held.isBroadcast = byBroadcast <;> simp [keep, hright]

theorem store_store (slots : Slots α) (j : ℕ) (new : Received α) :
    (slots.store byBroadcast j new).store byBroadcast j new = slots.store byBroadcast j new := by
  rw [store, store, List.modify_modify_eq]
  exact congrArg _ (funext fun held => congrArg some (keep_keep new held))

end Slots

variable {σ C O : Type}

/-- The slots of a state for the contents of one kind. -/
structure Shelf (σ C : Type) where
  Item : Type
  kind : String
  /-- How contents of this kind have to come. -/
  byBroadcast : Bool
  slots : σ → Slots Item
  /-- What is kept of a content of this kind. -/
  item? : C → Option Item

def Shelf.arrival? (shelf : Shelf σ C) (place? : Message C → Option ℕ) (j : ℕ) (m : Message C) :
    Option (Received shelf.Item) :=
  if place? m = some j then (shelf.item? m.content).map fun x => ⟨x, m.isBroadcast⟩ else none

/-- Which messages a state takes up and where it puts them. -/
structure Intake (σ C : Type) where
  shelves : List (Shelf σ C)
  byBroadcast : C → Bool
  /-- Whether the party has a use for a content. -/
  consumes : σ → C → Bool
  /-- The committee that a content speaks for. -/
  senders : σ → C → Committee
  /-- What a sender outside this committee is charged with. -/
  charge : FaultCause

namespace Intake

/-- The message came the way its content has to come. -/
def WellRouted (intake : Intake σ C) (m : Message C) : Prop :=
  m.isBroadcast = intake.byBroadcast m.content

def place? (intake : Intake σ C) (s : σ) (m : Message C) : Option ℕ :=
  if intake.consumes s m.content then (intake.senders s m.content).seat? m.sender else none

variable [Content C]

def slot? (intake : Intake σ C) (s : σ) (m : Message C) : Option (String × ℕ) :=
  (intake.place? s m).map fun j => (m.kind, j)

theorem slot?_of_kind_ne {s : σ} {m m' : Message C} (intake : Intake σ C) (h : m.kind ≠ m'.kind) :
    intake.slot? s m = none ∨ intake.slot? s m ≠ intake.slot? s m' := by
  unfold slot?
  cases intake.place? s m with
  | none => exact Or.inl rfl
  | some i => cases intake.place? s m' <;> simp [h]

structure Sorts (intake : Intake σ C) : Prop where
  exists_shelf : ∀ c : C, ∃ shelf ∈ intake.shelves, shelf.kind = Content.kind c
  isSome_item?_iff : ∀ shelf ∈ intake.shelves, ∀ c,
    (shelf.item? c).isSome = true ↔ Content.kind c = shelf.kind
  byBroadcast_eq : ∀ shelf ∈ intake.shelves, ∀ c, Content.kind c = shelf.kind →
    intake.byBroadcast c = shelf.byBroadcast

/-- Every message that came the right way is admitted by the round that its content is sent in, and
nothing else is admitted. -/
structure AdmittedBy (intake : Intake σ C) (rounds : List (Round σ C O)) : Prop where
  exists_round : ∀ m : Message C, ∃ round ∈ rounds, round.number = m.round
  accepts_iff : ∀ round ∈ rounds, ∀ m,
    round.accepts m = true ↔ round.number = m.round ∧ intake.WellRouted m

/-- The slots of the state keep the first message that comes the right way. -/
structure KeepsFirst (intake : Intake σ C) (protocol : Protocol σ C O)
    (rounds : List (Round σ C O)) (s : σ) : Prop where
  sorts : intake.Sorts
  admittedBy : intake.AdmittedBy rounds
  /-- In the end, a slot holds what is due to those messages that have come to it. -/
  settled : ∀ shelf ∈ intake.shelves, ∀ messages j,
    (shelf.slots (protocol.takeAll s messages))[j]? = (shelf.slots s)[j]?.map fun held =>
      Slots.settled shelf.byBroadcast held
        (messages.filterMap (shelf.arrival? (intake.place? s) j))
  /-- Who does not sit where it claims to is refused. -/
  refused : ∀ m, intake.consumes s m.content = true →
    (intake.senders s m.content).seat? m.sender = none →
      protocol.store s m = .error (.fault ⟨protocol.task, m.round, [m.sender], intake.charge⟩) ∧
        protocol.takeUp s m = s
  dropped : ∀ m, intake.consumes s m.content = false → protocol.store s m = .ok s
  again : ∀ m, protocol.store s m >>= (protocol.store · m) = protocol.store s m
  comm : ∀ m m', intake.slot? s m = none ∨ intake.slot? s m ≠ intake.slot? s m' →
    protocol.takeUp (protocol.takeUp s m) m' = protocol.takeUp (protocol.takeUp s m') m

structure Stores (intake : Intake σ C) (protocol : Protocol σ C O)
    (fill : σ → ℕ → Message C → σ) : Prop where
  filled : ∀ {s m j}, intake.place? s m = some j → protocol.store s m = .ok (fill s j m)
  dropped : ∀ {s m}, intake.consumes s m.content = false → protocol.store s m = .ok s
  refused : ∀ {s m}, intake.consumes s m.content = true →
    (intake.senders s m.content).seat? m.sender = none →
      protocol.store s m = .error (.fault ⟨protocol.task, m.round, [m.sender], intake.charge⟩)

/-- Filling a slot changes this slot and nothing that decides where messages go. -/
structure Fills (intake : Intake σ C) (fill : σ → ℕ → Message C → σ) : Prop where
  place? : ∀ s j m, intake.place? (fill s j m) = intake.place? s
  slots : ∀ shelf ∈ intake.shelves, ∀ s j m, shelf.slots (fill s j m) =
    (shelf.item? m.content).elim (shelf.slots s) fun x =>
      (shelf.slots s).store shelf.byBroadcast j ⟨x, m.isBroadcast⟩
  again : ∀ s j m, fill (fill s j m) j m = fill s j m
  comm : ∀ {s i j m m'}, (m.kind = m'.kind → i ≠ j) →
    fill (fill s i m) j m' = fill (fill s j m') i m

section Stores

variable {intake : Intake σ C} {protocol : Protocol σ C O} {fill : σ → ℕ → Message C → σ}
  (h : intake.Stores protocol fill)

include h

theorem Stores.takeUp_eq (s : σ) (m : Message C) :
    protocol.takeUp s m = (intake.place? s m).elim s fun j => fill s j m := by
  cases hplace : intake.place? s m with
  | some j => exact Protocol.takeUp_of_store (h.filled hplace)
  | none =>
      cases hconsumes : intake.consumes s m.content with
      | false => exact Protocol.takeUp_of_store (h.dropped hconsumes)
      | true =>
          refine Protocol.takeUp_of_store_error (h.refused hconsumes ?_)
          rwa [Intake.place?, if_pos hconsumes] at hplace

theorem Stores.eq_of_error {s : σ} {m : Message C} {e : Error}
    (he : protocol.store s m = .error e) : (intake.consumes s m.content = true ∧
      (intake.senders s m.content).seat? m.sender = none) ∧
        e = .fault ⟨protocol.task, m.round, [m.sender], intake.charge⟩ := by
  cases hconsumes : intake.consumes s m.content with
  | false =>
      rw [h.dropped hconsumes] at he
      cases he
  | true =>
      cases hseat : (intake.senders s m.content).seat? m.sender with
      | none =>
          rw [h.refused hconsumes hseat] at he
          exact ⟨⟨rfl, rfl⟩, (Except.error.inj he).symm⟩
      | some j =>
          have hplace : intake.place? s m = some j := by rw [place?, if_pos hconsumes, hseat]
          rw [h.filled hplace] at he
          cases he

variable (hfills : intake.Fills fill)

include hfills

theorem Stores.place?_takeUp (s : σ) (m : Message C) :
    intake.place? (protocol.takeUp s m) = intake.place? s := by
  rw [h.takeUp_eq]
  cases intake.place? s m with
  | none => rfl
  | some j => exact hfills.place? s j m

theorem Stores.slots_takeUp {shelf : Shelf σ C} (hshelf : shelf ∈ intake.shelves) (s : σ)
    (m : Message C) (j : ℕ) : (shelf.slots (protocol.takeUp s m))[j]? =
      (shelf.slots s)[j]?.map fun held => (shelf.arrival? (intake.place? s) j m).elim held
        fun new => some (Slots.keep shelf.byBroadcast new held) := by
  rw [h.takeUp_eq, Shelf.arrival?]
  cases intake.place? s m with
  | none => simp
  | some i =>
      rw [Option.elim_some, hfills.slots shelf hshelf]
      cases shelf.item? m.content with
      | none => simp
      | some x =>
          by_cases hij : i = j <;> simp [Slots.store, hij]

/-- What holds of one message carries over to any number of them. -/
theorem Stores.slots_takeAll {shelf : Shelf σ C} (hshelf : shelf ∈ intake.shelves) (s : σ)
    (messages : List (Message C)) (j : ℕ) : (shelf.slots (protocol.takeAll s messages))[j]? =
      (shelf.slots s)[j]?.map fun held => Slots.settled shelf.byBroadcast held
        (messages.filterMap (shelf.arrival? (intake.place? s) j)) := by
  induction messages generalizing s with
  | nil => simp
  | cons m rest ih =>
      -- Where messages go is the same after `m`, so `ih` speaks of the same arrivals.
      rw [Protocol.takeAll_cons, ih, h.place?_takeUp hfills, h.slots_takeUp hfills hshelf,
        Option.map_map, List.filterMap_cons]
      cases shelf.arrival? (intake.place? s) j m with
      | none => rfl
      | some new =>
          simp only [Slots.settled_cons]
          rfl

theorem Stores.again (s : σ) (m : Message C) :
    protocol.store s m >>= (protocol.store · m) = protocol.store s m := by
  cases hplace : intake.place? s m with
  | some j =>
      have hagain : intake.place? (fill s j m) m = some j := by rw [hfills.place?, hplace]
      rw [h.filled hplace, Result.ok_bind, h.filled hagain, hfills.again]
  | none =>
      cases hconsumes : intake.consumes s m.content with
      | false => rw [h.dropped hconsumes, Result.ok_bind, h.dropped hconsumes]
      | true =>
          rw [Intake.place?, if_pos hconsumes] at hplace
          rw [h.refused hconsumes hplace, Result.error_bind]

theorem Stores.comm {s : σ} {m m' : Message C}
    (hslot : intake.slot? s m = none ∨ intake.slot? s m ≠ intake.slot? s m') :
    protocol.takeUp (protocol.takeUp s m) m' = protocol.takeUp (protocol.takeUp s m') m := by
  unfold slot? at hslot
  simp only [h.takeUp_eq]
  cases hplace : intake.place? s m with
  | none => cases hplace' : intake.place? s m' <;> simp [hfills.place?, hplace, hplace']
  | some i =>
      cases hplace' : intake.place? s m' with
      | none => simp [hfills.place?, hplace, hplace']
      | some j =>
          have hdistinct : m.kind = m'.kind → i ≠ j := by
            rintro hkind rfl
            simp [hplace, hplace', hkind] at hslot
          simp only [Option.elim_some, hfills.place?, hplace, hplace', hfills.comm hdistinct]

theorem Stores.keepsFirst (hsorts : intake.Sorts) {rounds : List (Round σ C O)}
    (hadmittedBy : intake.AdmittedBy rounds) (s : σ) : intake.KeepsFirst protocol rounds s where
  sorts := hsorts
  admittedBy := hadmittedBy
  settled _ hshelf messages j := h.slots_takeAll hfills hshelf s messages j
  refused _ hconsumes hseat := ⟨h.refused hconsumes hseat,
    Protocol.takeUp_of_store_error (h.refused hconsumes hseat)⟩
  dropped _ := h.dropped
  again := h.again hfills s
  comm _ _ := h.comm hfills

end Stores

end Intake

end ThresholdKeys
