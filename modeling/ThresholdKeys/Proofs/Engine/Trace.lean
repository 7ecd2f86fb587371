import Mathlib
import ThresholdKeys.Proofs.Engine.Run

/-!
# Which rounds a run enters

A trace kept beside the run of a party: the numbers of the rounds whose entry is tried, in order and
whether or not the entry succeeds. Keeping it does not change the run.
-/

namespace ThresholdKeys.Party

variable {σ C O : Type}

/-- As `proceed`, with the numbers of the rounds whose entry is tried. -/
def proceedTraced : List (Round σ C O) → Round σ C O → Checklist → Bool → Party σ C O →
    List ℕ × Result Bool × Party σ C O
  | later, round, checklist, advanced, p =>
    match round.inspect p.state with
    | .error e => ([], p.fail e)
    | .ok () =>
      let checklist := checklist.tickWhere (round.hasArrived p.state)
      if checklist.isComplete then
        match later with
        | [] => ([], .ok true, { p with stage := .finished })
        | next :: later =>
          match p.enter next with
          | .error e => ([next.number], p.fail e)
          | .ok (p, checklist) =>
              let (numbers, outcome) := proceedTraced later next checklist true p
              (next.number :: numbers, outcome)
      else ([], .ok advanced, { p with stage := .active checklist round later })

def advanceTraced (p : Party σ C O) : List ℕ × Result Bool × Party σ C O :=
  match p.stage with
  | .active checklist round later => proceedTraced later round checklist false p
  | _ => ([], .ok false, p)

def startTraced (p : Party σ C O) : List ℕ × Result Unit × Party σ C O :=
  match p.stage with
  | .notStarted first later =>
    match first.prepare p.state with
    | .error e => ([], p.fail e)
    | .ok () =>
      match p.enter first with
      | .error e => ([first.number], p.fail e)
      | .ok (p, checklist) =>
          let (numbers, advanced, p) := proceedTraced later first checklist false p
          (first.number :: numbers, advanced.map fun _ => (), p)
  | _ => ([], .error (.caller .alreadyStarted), p)

variable [Content C]

def updateTraced (p : Party σ C O) (m : Message C) : List ℕ × Result Bool × Party σ C O :=
  match p.validate m with
  | .error e => ([], .error e, p)
  | .ok () =>
    match p.store m with
    | (.error e, p) => ([], .error e, p)
    | (.ok (), p) => p.advanceTraced

def updateFromBytesTraced (p : Party σ C O) (bytes : Bytes) (sender : PartyId)
    (isBroadcast : Bool) : List ℕ × Result Bool × Party σ C O :=
  match Message.ofWire bytes sender (if isBroadcast then none else some [p.id]) isBroadcast with
  | .error e => ([], .error e, p)
  | .ok m => p.updateTraced m

/-- As `after`, with the numbers of the rounds whose entry is tried. -/
def afterTraced (p : Party σ C O) : Call C → List ℕ × Party σ C O
  | .start => (p.startTraced.1, p.startTraced.2.2)
  | .update m => ((p.updateTraced m).1, (p.updateTraced m).2.2)
  | .updateFromBytes bytes sender isBroadcast =>
      ((p.updateFromBytesTraced bytes sender isBroadcast).1,
        (p.updateFromBytesTraced bytes sender isBroadcast).2.2)
  | c => ([], p.after c)

def runTraced (p : Party σ C O) : List (Call C) → List ℕ × Party σ C O
  | [] => ([], p)
  | c :: calls =>
      let (numbers, p) := p.afterTraced c
      let (more, p) := p.runTraced calls
      (numbers ++ more, p)

omit [Content C] in
theorem snd_proceedTraced (later : List (Round σ C O)) (round : Round σ C O)
    (checklist : Checklist) (advanced : Bool) (p : Party σ C O) :
    (proceedTraced later round checklist advanced p).2 =
      proceed later round checklist advanced p := by
  induction later generalizing round checklist advanced p with
  | nil =>
      unfold proceedTraced proceed
      cases round.inspect p.state with
      | error e => rfl
      | ok u => dsimp only; split <;> rfl
  | cons next later ih =>
      unfold proceedTraced proceed
      cases round.inspect p.state with
      | error e => rfl
      | ok u =>
          dsimp only
          split
          · cases p.enter next with
            | error e => rfl
            | ok r => exact ih next r.2 true r.1
          · rfl

omit [Content C] in
theorem snd_advanceTraced (p : Party σ C O) : p.advanceTraced.2 = p.advance := by
  unfold advanceTraced advance
  cases p.stage with
  | active checklist round later => exact snd_proceedTraced ..
  | notStarted | finished | failed => rfl

omit [Content C] in
theorem snd_startTraced (p : Party σ C O) : p.startTraced.2 = p.start := by
  unfold startTraced start
  cases p.stage with
  | notStarted first later =>
      dsimp only
      cases first.prepare p.state with
      | error e => rfl
      | ok u =>
          cases p.enter first with
          | error e => rfl
          | ok r =>
              dsimp only
              rw [← snd_proceedTraced later first r.2 false r.1]
  | active | finished | failed => rfl

theorem snd_updateTraced (p : Party σ C O) (m : Message C) :
    (p.updateTraced m).2 = p.update m := by
  unfold updateTraced update
  cases p.validate m with
  | error e => rfl
  | ok u =>
      dsimp only
      rcases p.store m with ⟨e | u, q⟩
      · rfl
      · exact q.snd_advanceTraced

theorem snd_updateFromBytesTraced (p : Party σ C O) (bytes : Bytes) (sender : PartyId)
    (isBroadcast : Bool) : (p.updateFromBytesTraced bytes sender isBroadcast).2 =
      p.updateFromBytes bytes sender isBroadcast := by
  unfold updateFromBytesTraced updateFromBytes
  cases (Message.ofWire bytes sender (if isBroadcast then none else some [p.id]) isBroadcast :
      Result (Message C)) with
  | error e => rfl
  | ok m => exact p.snd_updateTraced m

theorem snd_afterTraced (p : Party σ C O) (c : Call C) : (p.afterTraced c).2 = p.after c := by
  cases c with
  | start => exact congrArg Prod.snd (snd_startTraced p)
  | update m => exact congrArg Prod.snd (p.snd_updateTraced m)
  | updateFromBytes bytes sender isBroadcast =>
      exact congrArg Prod.snd (p.snd_updateFromBytesTraced bytes sender isBroadcast)
  | store m | closeOutbox | closeResults => rfl

theorem snd_runTraced (p : Party σ C O) (calls : List (Call C)) :
    (p.runTraced calls).2 = p.run calls := by
  induction calls generalizing p with
  | nil => rfl
  | cons c calls ih =>
      change ((p.afterTraced c).2.runTraced calls).2 = (p.after c).run calls
      rw [snd_afterTraced, ih]

end ThresholdKeys.Party
