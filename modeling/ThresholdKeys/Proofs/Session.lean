import Mathlib
import ThresholdKeys.Proofs.Encoding
import ThresholdKeys.Session

/-!
# What a session is bound to

The bytes of a session as one sender sees it tell the sender, and unless the hash collides also the
task, the name of the curve, the keys of all participants, the threshold and the commitments. How
the parties are called does not enter.
-/

namespace ThresholdKeys

/-- The transcript has bound these labelled messages, in this order, and nothing else. -/
def Transcript.Carries (t : Transcript) (label : String) (messages : List (String × Bytes)) :
    Prop :=
  t = messages.foldl (fun t m => t.append m.1 m.2) (.new label)

namespace Session

theorem bytesFor_inj {s s' : Session} {sender sender' : ℕ} (hsender : sender < 2 ^ 64)
    (hsender' : sender' < 2 ^ 64) :
    s.bytesFor sender = s'.bytesFor sender' ↔ s = s' ∧ sender = sender' := by
  constructor
  · intro heq
    obtain ⟨hbytes, hindex⟩ := List.append_inj heq (s.digest.length_eq.trans s'.digest.length_eq.symm)
    exact ⟨congrArg Session.mk (Digest.bytes_injective hbytes),
      Bytes.be64_injOn hsender hsender' hindex⟩
  · rintro ⟨rfl, rfl⟩
    rfl

/-- What the transcript of a sender has bound is of this session and this sender only. -/
theorem transcriptFor_carries (s : Session) {sender : ℕ} (hsender : sender < 2 ^ 64) :
    ∃ messages, (s.transcriptFor sender).Carries "tss-rounds session" messages ∧
      ∀ s' : Session, ∀ sender' < 2 ^ 64,
        messages = [("session", s'.bytesFor sender')] ↔ s = s' ∧ sender = sender' :=
  ⟨[("session", s.bytesFor sender)], rfl, fun s' sender' hsender' => by
    rw [List.cons.injEq, Prod.mk.injEq, bytesFor_inj hsender hsender']
    simp⟩

structure Terms where
  task : String
  curveName : String
  parties : Committee
  threshold : ℕ
  commitments : List Commitment

namespace Terms

def keys (s : Terms) : List ℕ := s.parties.members.map PartyId.key

def context (s : Terms) : Bytes :=
  Session.context s.task (.named s.curveName) s.parties s.threshold s.commitments

def session (s : Terms) : Session :=
  .new s.task (.named s.curveName) s.parties s.threshold s.commitments

/-- Eight bytes are enough for every length, every count and the threshold. -/
structure Fits (s : Terms) : Prop where
  task : (Bytes.ofString s.task).length < 2 ^ 64
  curveName : (Bytes.ofString s.curveName).length < 2 ^ 64
  keys : Bytes.Fits s.keys
  threshold : s.threshold < 2 ^ 64

/-- The same task, curve and threshold, and the same keys and commitments in the same order. -/
structure Agree (s s' : Terms) : Prop where
  task : s.task = s'.task
  curveName : s.curveName = s'.curveName
  keys : s.keys = s'.keys
  threshold : s.threshold = s'.threshold
  commitments : s.commitments = s'.commitments

theorem context_eq (s : Terms) :
    s.context = Bytes.lengthPrefixed (Bytes.ofString s.task) ++
      (Bytes.lengthPrefixed (Bytes.ofString s.curveName) ++
        (Bytes.minimal groupOrder ++ (Point.generator.toBytes ++
          ((Bytes.be64 s.keys.length ++
              s.keys.flatMap fun key => Bytes.lengthPrefixed (Bytes.minimal key)) ++
            (Bytes.be64 s.threshold ++ s.commitments.flatMap fun c => c.digest.bytes))))) := by
  simp only [context, Session.context, CurveParams.toBytes, CurveParams.named, keys,
    List.length_map, List.flatMap_map, Committee.size, List.append_assoc]

theorem commitments_injective :
    Function.Injective fun cs : List Commitment => cs.flatMap fun c => c.digest.bytes := by
  have hdigests : Bytes.SelfDelimiting (fun c : Commitment => c.digest.bytes) fun _ => True := by
    refine Bytes.selfDelimiting_of_length (fun c => c.digest.length_eq) fun c _ c' _ h => ?_
    exact congrArg Commitment.mk (Digest.bytes_injective h)
  have hne (c : Commitment) : c.digest.bytes ≠ [] :=
    List.ne_nil_of_length_pos (c.digest.length_eq ▸ by decide)
  intro cs cs' h
  exact hdigests.flatMap_injOn hne (fun _ _ => trivial) (fun _ _ => trivial) h

variable {s s' : Terms}

theorem agree_of_context_eq (h : s.Fits) (h' : s'.Fits) (heq : s.context = s'.context) :
    s.Agree s' := by
  have htexts := Bytes.selfDelimiting_lengthPrefixed.comp Bytes.ofString_injective
  rw [context_eq, context_eq] at heq
  obtain ⟨htask, heq⟩ := htexts h.task h'.task heq
  obtain ⟨hname, heq⟩ := htexts h.curveName h'.curveName heq
  -- order and generator have no length in front, but they are those of every named curve
  have heq := List.append_cancel_left (List.append_cancel_left heq)
  obtain ⟨hkeys, heq⟩ := Bytes.selfDelimiting_integers h.keys h'.keys heq
  obtain ⟨hthreshold, heq⟩ := Bytes.selfDelimiting_be64 h.threshold h'.threshold heq
  exact ⟨htask, hname, hkeys, hthreshold, commitments_injective heq⟩

theorem Agree.context_eq (h : s.Agree s') : s.context = s'.context := by
  rw [Terms.context_eq, Terms.context_eq, h.task, h.curveName, h.keys, h.threshold, h.commitments]

end Terms

/-- Two senders see the same session bytes exactly when they have one index and either the hash
collides on what they hash or this agrees in all that is hashed. -/
theorem bytesFor_eq_iff {s s' : Terms} {sender sender' : ℕ} (h : s.Fits) (h' : s'.Fits)
    (hsender : sender < 2 ^ 64) (hsender' : sender' < 2 ^ 64) :
    s.session.bytesFor sender = s'.session.bytesFor sender' ↔
      sender = sender' ∧ (Sha256.Collide s.context s'.context ∨ s.Agree s') := by
  rw [bytesFor_inj hsender hsender', and_comm]
  refine and_congr_right fun _ => ⟨fun heq => ?_, fun hsame => ?_⟩
  · have hdigest : sha256 s.context = sha256 s'.context := congrArg Session.digest heq
    rcases Sha256.eq_or_collide hdigest with hcontext | hcollide
    · exact .inr (Terms.agree_of_context_eq h h' hcontext)
    · exact .inl hcollide
  · have hdigest : sha256 s.context = sha256 s'.context :=
      hsame.elim And.right fun hagree => congrArg sha256 hagree.context_eq
    exact congrArg Session.mk hdigest

theorem bytesFor_eq_iff_pair :
    let s : Terms := ⟨"keygen", "k256", ⟨[⟨"a", "A", 1, some 0⟩, ⟨"b", "B", 256, some 1⟩]⟩, 1, []⟩
    let s' : Terms := ⟨"keygen", "k256", ⟨[⟨"c", "C", 1, some 0⟩, ⟨"d", "D", 256, some 1⟩]⟩, 1, []⟩
    s.session.bytesFor 1 = s'.session.bytesFor 1 ∧ s.session.bytesFor 0 ≠ s'.session.bytesFor 1 := by
  intro s s'
  have htask : (Bytes.ofString "keygen").length < 2 ^ 64 := by
    rw [Bytes.length_ofString]
    decide
  have hname : (Bytes.ofString "k256").length < 2 ^ 64 := by
    rw [Bytes.length_ofString]
    decide
  have h : s.Fits := ⟨htask, hname, ⟨by decide, by decide⟩, by decide⟩
  have h' : s'.Fits := ⟨htask, hname, ⟨by decide, by decide⟩, by decide⟩
  constructor
  · exact (bytesFor_eq_iff h h' (by decide) (by decide)).2 ⟨rfl, .inr ⟨rfl, rfl, rfl, rfl, rfl⟩⟩
  · intro heq
    exact absurd ((bytesFor_eq_iff h h' (by decide) (by decide)).1 heq).1 (by decide)

end Session

end ThresholdKeys
