import Mathlib
import ThresholdKeys.Proofs.Engine.Queue

/-!
# A queue that is stable in each round

Messages are put into a queue and taken out of it in any order of the two. The queue serves the
rounds as they rise and the messages of each round as they came: what was taken of a round, followed
by what is held of it, is at every moment what was put in of it. As a list in the order of rounds is
known from what it has of each round, a queue that is filled and then emptied sorts stably.
-/

namespace ThresholdKeys

namespace Queue

variable {C : Type} [Content C]

/-! ## What a list has of a round -/

def ofRound (round : ℕ) (messages : List (Message C)) : List (Message C) :=
  messages.filter fun m => m.round = round

theorem ofRound_cons (round : ℕ) (m : Message C) (rest : List (Message C)) :
    ofRound round (m :: rest) =
      if m.round = round then m :: ofRound round rest else ofRound round rest := by
  simp only [ofRound, List.filter_cons, decide_eq_true_eq]

theorem ofRound_append (round : ℕ) (messages others : List (Message C)) :
    ofRound round (messages ++ others) = ofRound round messages ++ ofRound round others :=
  List.filter_append messages others

theorem ofRound_eq_nil {round : ℕ} {messages : List (Message C)}
    (h : ∀ m ∈ messages, round < m.round) : ofRound round messages = [] :=
  List.filter_eq_nil_iff.2 fun m hm => by simpa using (h m hm).ne'

/-- What is put in comes last in its round and leaves all other rounds as they are. -/
theorem ofRound_store {queue : List (Message C)} (h : Sorted queue) (m : Message C) (round : ℕ) :
    ofRound round (store m queue) = ofRound round queue ++ ofRound round [m] := by
  induction queue with
  | nil => rfl
  | cons first rest ih =>
      unfold store
      split
      · rename_i hlt
        by_cases hm : m.round = round
        · -- All that is held is of later rounds, so the front is the end of this round.
          have hnone : ofRound round (first :: rest) = [] := ofRound_eq_nil (hm ▸ h.forall_lt hlt)
          rw [ofRound_cons, ofRound_cons round m [], if_pos hm, if_pos hm, hnone]
          rfl
        · rw [ofRound_cons, ofRound_cons round m [], if_neg hm, if_neg hm]
          exact (List.append_nil _).symm
      · rw [ofRound_cons, ofRound_cons, ih (List.pairwise_cons.1 h).2]
        split <;> rfl

theorem perm_of_ofRound_eq {messages others : List (Message C)}
    (h : ∀ round, ofRound round messages = ofRound round others) : messages.Perm others := by
  classical
  have hcount (m : Message C) (l : List (Message C)) : (ofRound m.round l).count m = l.count m :=
    List.count_filter (by simp)
  refine List.perm_iff_count.2 fun m => ?_
  rw [← hcount m messages, h, hcount]

theorem Sorted.le_of_mem {m held : Message C} {rest : List (Message C)} (h : Sorted (m :: rest))
    (hheld : held ∈ m :: rest) : m.round ≤ held.round := by
  rcases List.mem_cons.1 hheld with rfl | hrest
  · exact le_rfl
  · exact (List.pairwise_cons.1 h).1 held hrest

/-- A list in the order of rounds is known from what it has of each round. -/
theorem Sorted.eq_of_ofRound_eq {queue other : List (Message C)} (hqueue : Sorted queue)
    (hother : Sorted other) (h : ∀ round, ofRound round queue = ofRound round other) :
    queue = other := by
  induction queue generalizing other with
  | nil => exact (perm_of_ofRound_eq h).nil_eq
  | cons m rest ih =>
      have hperm := perm_of_ofRound_eq h
      cases other with
      | nil => exact hperm.eq_nil
      | cons m' rest' =>
          have hround : m'.round = m.round :=
            le_antisymm (hother.le_of_mem (hperm.mem_iff.1 List.mem_cons_self))
              (hqueue.le_of_mem (hperm.mem_iff.2 List.mem_cons_self))
          have hfirst := h m.round
          rw [ofRound_cons, if_pos rfl, ofRound_cons, if_pos hround] at hfirst
          obtain ⟨rfl, -⟩ := List.cons.inj hfirst
          refine congrArg (List.cons m) (ih (List.pairwise_cons.1 hqueue).2
            (List.pairwise_cons.1 hother).2 fun round => ?_)
          have hcons := h round
          rw [ofRound_cons, ofRound_cons] at hcons
          split at hcons
          · exact (List.cons.inj hcons).2
          · exact hcons

/-! ## Stable sorting -/

/-- Whether a message need not come after another one. -/
def byRound (m m' : Message C) : Bool := m.round ≤ m'.round

theorem byRound_trans (m₁ m₂ m₃ : Message C) (h : byRound m₁ m₂ = true)
    (h' : byRound m₂ m₃ = true) : byRound m₁ m₃ = true :=
  decide_eq_true ((of_decide_eq_true h).trans (of_decide_eq_true h'))

theorem byRound_total (m m' : Message C) : (byRound m m' || byRound m' m) = true := by
  simpa [byRound] using le_total m.round m'.round

theorem sorted_mergeSort (messages : List (Message C)) : Sorted (messages.mergeSort byRound) :=
  (List.pairwise_mergeSort byRound_trans byRound_total messages).imp of_decide_eq_true

theorem ofRound_mergeSort (messages : List (Message C)) (round : ℕ) :
    ofRound round (messages.mergeSort byRound) = ofRound round messages := by
  have hequal : (ofRound round messages).Pairwise fun m m' => byRound m m' = true := by
    refine List.pairwise_of_forall_mem_list fun m hm m' hm' => ?_
    have hround := of_decide_eq_true (List.mem_filter.1 hm).2
    have hround' := of_decide_eq_true (List.mem_filter.1 hm').2
    exact decide_eq_true (hround.trans hround'.symm).le
  have hsub : (ofRound round messages).Sublist (messages.mergeSort byRound) :=
    List.sublist_mergeSort byRound_trans byRound_total hequal List.filter_sublist
  have hfilter := hsub.filter fun m => m.round = round
  rw [ofRound, List.filter_filter] at hfilter
  simp only [Bool.and_self] at hfilter
  have hlength := ((List.mergeSort_perm messages byRound).filter fun m => m.round = round).length_eq
  exact (hfilter.eq_of_length hlength.symm).symm

/-! ## Putting in and taking out -/

inductive Operation (C : Type)
  | store (m : Message C)
  | pop

/-- A queue, with all that was put into it and all that was taken out of it, each in the order in
which that happened. -/
structure History (C : Type) where
  stored : List (Message C) := []
  popped : List (Message C) := []
  held : List (Message C) := []

namespace History

def after (h : History C) : Operation C → History C
  | .store m => { h with stored := h.stored ++ [m], held := store m h.held }
  | .pop =>
    match pop? h.held with
    | none => h
    | some (m, rest) => { h with popped := h.popped ++ [m], held := rest }

def run (h : History C) (operations : List (Operation C)) : History C := operations.foldl after h

/-- The queue is in the order of rounds, and each round is first in, first out. -/
structure Stable (h : History C) : Prop where
  sorted : Sorted h.held
  ofRound_eq : ∀ round, ofRound round h.popped ++ ofRound round h.held = ofRound round h.stored

theorem Stable.after {h : History C} (hs : h.Stable) (operation : Operation C) :
    (h.after operation).Stable := by
  cases operation with
  | store m =>
      refine ⟨hs.sorted.store m, fun round => ?_⟩
      simp only [History.after]
      rw [ofRound_store hs.sorted, ← List.append_assoc, hs.ofRound_eq, ofRound_append]
  | pop =>
      obtain ⟨stored, popped, held⟩ := h
      cases held with
      | nil => exact hs
      | cons m rest =>
          refine ⟨(List.pairwise_cons.1 hs.sorted).2, fun round => ?_⟩
          have hround := hs.ofRound_eq round
          simp only [History.after, pop?] at hround ⊢
          rw [← hround, ← ofRound_append, ← ofRound_append, List.append_assoc, List.singleton_append]

theorem Stable.run {h : History C} (hs : h.Stable) (operations : List (Operation C)) :
    (h.run operations).Stable := by
  induction operations generalizing h with
  | nil => exact hs
  | cons operation rest ih => exact ih (hs.after operation)

theorem stable_empty : Stable ({} : History C) := ⟨List.Pairwise.nil, fun _ => rfl⟩

theorem run_store (h : History C) (messages : List (Message C)) :
    (h.run (messages.map .store)).stored = h.stored ++ messages ∧
      (h.run (messages.map .store)).popped = h.popped := by
  induction messages generalizing h with
  | nil => exact ⟨(List.append_nil _).symm, rfl⟩
  | cons m rest ih =>
      obtain ⟨hstored, hpopped⟩ := ih (h.after (.store m))
      exact ⟨hstored.trans (List.append_cons ..).symm, hpopped⟩

theorem run_pop (stored popped held : List (Message C)) :
    run ⟨stored, popped, held⟩ (List.replicate held.length .pop) =
      ⟨stored, popped ++ held, []⟩ := by
  induction held generalizing popped with
  | nil => rw [List.append_nil]; rfl
  | cons m rest ih => exact (ih (popped ++ [m])).trans (by rw [← List.append_cons])

theorem run_store_eq (messages : List (Message C)) :
    run {} (messages.map .store) = ⟨messages, [], messages.mergeSort byRound⟩ := by
  have hstable := stable_empty.run (messages.map .store)
  obtain ⟨hstored, hpopped⟩ := run_store {} messages
  generalize run {} (messages.map .store) = h at hstable hstored hpopped
  obtain ⟨stored, popped, held⟩ := h
  obtain rfl : stored = messages := hstored
  obtain rfl : popped = [] := hpopped
  have hheld : held = stored.mergeSort byRound :=
    hstable.sorted.eq_of_ofRound_eq (sorted_mergeSort stored) fun round =>
      (hstable.ofRound_eq round).trans (ofRound_mergeSort stored round).symm
  rw [hheld]

/-! ## The queue as a whole -/

/-- The queue is in order, nothing is missing from it and nothing is twice, and it has the earliest
message of the least round ready. -/
structure Serves (h : History C) : Prop where
  sorted : Sorted h.held
  /-- What was taken of a round and what is held of it are what was put in of it, in that order. -/
  ofRound_eq : ∀ round, ofRound round h.popped ++ ofRound round h.held = ofRound round h.stored
  /-- Each message that was put in has been taken or is held, once. -/
  perm : (h.popped ++ h.held).Perm h.stored
  peekRound?_eq_some_iff : ∀ round,
    peekRound? h.held = some round ↔ IsLeast (Message.round '' {m | m ∈ h.held}) round
  pop?_eq_none_iff : pop? h.held = none ↔ h.held = []
  /-- What comes next is the first message of the least round that was put in and not taken yet. -/
  pop?_eq_some : ∀ m rest, pop? h.held = some (m, rest) →
    peekRound? h.held = some m.round ∧
      ofRound m.round h.stored = ofRound m.round h.popped ++ m :: ofRound m.round rest

theorem Stable.peekRound?_eq_some_iff {h : History C} (hs : h.Stable) (round : ℕ) :
    peekRound? h.held = some round ↔ IsLeast (Message.round '' {m | m ∈ h.held}) round := by
  cases hheld : h.held with
  | nil => simp [peekRound?, IsLeast]
  | cons m rest =>
      have hleast : IsLeast (Message.round '' {held | held ∈ m :: rest}) m.round := by
        refine ⟨⟨m, List.mem_cons_self, rfl⟩, ?_⟩
        rintro _ ⟨held, hmem, rfl⟩
        exact (hheld ▸ hs.sorted).le_of_mem hmem
      rw [peekRound?, List.head?_cons, Option.map_some, Option.some.injEq]
      exact ⟨fun hround => hround ▸ hleast, fun hround => hleast.unique hround⟩

theorem Stable.serves {h : History C} (hs : h.Stable) : h.Serves where
  sorted := hs.sorted
  ofRound_eq := hs.ofRound_eq
  perm := perm_of_ofRound_eq fun round => (ofRound_append ..).trans (hs.ofRound_eq round)
  peekRound?_eq_some_iff := hs.peekRound?_eq_some_iff
  pop?_eq_none_iff := by cases h.held <;> simp [pop?]
  pop?_eq_some m rest hpop := by
    have hround := hs.ofRound_eq m.round
    cases hheld : h.held with
    | nil => simp [hheld, pop?] at hpop
    | cons first others =>
        obtain ⟨rfl, rfl⟩ : first = m ∧ others = rest := by simpa [hheld, pop?] using hpop
        rw [hheld, ofRound_cons, if_pos rfl] at hround
        exact ⟨rfl, hround.symm⟩

/-- Whatever is put into an empty queue and taken out of it, the rounds are served as they rise and
the messages of each round as they came; and what is put in before anything is taken out comes out
stably sorted by round. -/
theorem serves_of_run :
    (∀ operations : List (Operation C), (run {} operations).Serves) ∧
      ∀ messages : List (Message C),
        run {} (messages.map .store ++ List.replicate messages.length .pop) =
          ⟨messages, messages.mergeSort fun m m' => m.round ≤ m'.round, []⟩ := by
  refine ⟨fun operations => (stable_empty.run operations).serves, fun messages => ?_⟩
  have hlength : messages.length = (messages.mergeSort byRound).length :=
    (List.length_mergeSort messages).symm
  have happend (h : History C) (l l' : List (Operation C)) : h.run (l ++ l') = (h.run l).run l' :=
    List.foldl_append
  rw [happend, run_store_eq, hlength]
  exact run_pop messages [] (messages.mergeSort byRound)

open Drill in
example : (run {} ([pingOfB 3 true, pingOfC 2, pingOfC 3, pingOfB 2 true].map .store ++
    [.pop, .pop, .pop, .pop])).popped =
      [pingOfC 2, pingOfB 2 true, pingOfB 3 true, pingOfC 3] := rfl

end History

end Queue

end ThresholdKeys
