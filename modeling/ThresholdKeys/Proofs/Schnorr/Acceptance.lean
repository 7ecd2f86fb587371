import Mathlib
import ThresholdKeys.Proofs.Schnorr
import ThresholdKeys.Session

/-!
# Which proofs of knowledge are accepted

A proof that somebody has made from a scalar is accepted exactly if its point is the multiple by
that scalar and not the identity, or if the challenge happened to be zero. Whoever fixes the first
message of a proof is left with one response for each challenge, and two responses to different
challenges tell the discrete logarithm of the point.
-/

namespace ThresholdKeys.Schnorr

def Statement.named (name : String) (point : Point) (version : Version) : Statement :=
  ⟨.named name, point, version⟩

/-! ## Completeness -/

/-- In a session, what a prover makes from a scalar is accepted exactly if the scalar fits or the
challenge is zero, and never about the identity. So a fitting scalar other than zero is enough. -/
theorem verify_prove_iff {name : String} {version : Version} {session : Session} {sender : ℕ}
    {point : Point} {witness : Scalar} {source source' : Source} {proof : Proof}
    (h : prove (.named name point version) witness (session.transcriptFor sender) source =
      .ok (proof, source')) :
    (∃ e, challenge (.named name point version) proof.commitment (session.transcriptFor sender) =
        .ok e ∧
      (proof.verify (.named name point version) (session.transcriptFor sender) = .ok () ↔
        point ≠ 0 ∧ (point = witness • Point.generator ∨ e = 0))) ∧
    (witness ≠ 0 → point = witness • Point.generator →
      proof.verify (.named name point version) (session.transcriptFor sender) = .ok ()) :=
  ⟨verify_iff_of_prove rfl h, fun hwitness hpoint => verify_of_prove rfl hpoint hwitness h⟩

theorem verify_prove_iff_one :
    let t := (Session.new "test" .secp256k1 ⟨[]⟩ 1 []).transcriptFor 1
    (∃ proof source',
      prove (.named "secp256k1" Point.generator .v1) 1 t .ones = .ok (proof, source') ∧
      proof.verify (.named "secp256k1" Point.generator .v1) t = .ok ()) ∧
    ∃ proof source' e,
      prove (.named "secp256k1" ((2 : Scalar) • Point.generator) .v1) 1 t .ones =
        .ok (proof, source') ∧
      challenge (.named "secp256k1" ((2 : Scalar) • Point.generator) .v1) proof.commitment t =
        .ok e ∧
      (proof.verify (.named "secp256k1" ((2 : Scalar) • Point.generator) .v1) t = .ok () ↔
        e = 0) := by
  intro t
  have hprove (point : Point) : ∃ proof source',
      prove (.named "secp256k1" point .v1) 1 t .ones = .ok (proof, source') := by
    obtain ⟨e, he⟩ : ∃ e, challenge (.named "secp256k1" point .v1)
        (Source.ones.nextNonzeroScalar.1 • Point.generator) t = .ok e := exists_challengeOf_v1 _
    exact ⟨_, _, prove_eq_ok he⟩
  constructor
  · obtain ⟨proof, source', h⟩ := hprove Point.generator
    exact ⟨proof, source', h, (verify_prove_iff h).2 one_ne_zero (one_smul _ _).symm⟩
  · obtain ⟨proof, source', h⟩ := hprove ((2 : Scalar) • Point.generator)
    obtain ⟨⟨e, he, hverify⟩, -⟩ := verify_prove_iff h
    have htwo : (2 : Scalar) • Point.generator ≠ 0 :=
      smul_ne_zero (by decide) Point.generator_ne_zero
    have hunfit : (2 : Scalar) • Point.generator ≠ (1 : Scalar) • Point.generator :=
      Point.smul_generator_injective.ne (by decide)
    refine ⟨proof, source', e, h, he, hverify.trans ?_⟩
    rw [or_iff_right hunfit, and_iff_right htwo]

/-! ## Soundness -/

theorem existsUnique_answers {s : Statement} (hgenerator : s.curve.generator = Point.generator)
    {commitment : Point} (hpoint : s.point ≠ 0) (hcommitment : commitment ≠ 0) (e : Scalar) :
    ∃! z, Proof.Answers ⟨commitment, z⟩ s e := by
  obtain ⟨z, hz⟩ := Point.exists_smul_generator (commitment + e • s.point)
  refine ⟨z, ⟨hpoint, hcommitment, ?_⟩, fun z' h => Point.smul_generator_injective ?_⟩
  · rw [hgenerator]
    exact hz
  · have hequation := h.equation
    rw [hgenerator] at hequation
    exact hequation.trans hz.symm

theorem Proof.Answers.sub_smul_eq {s s' : Statement} {p p' : Proof} {e e' : Scalar}
    (h : p.Answers s e) (h' : p'.Answers s' e') (hpoint : s'.point = s.point)
    (hcommitment : p'.commitment = p.commitment) (hgenerator : s.curve.generator = Point.generator)
    (hgenerator' : s'.curve.generator = Point.generator) :
    (p.response - p'.response) • Point.generator = (e - e') • s.point := by
  have hequation := h.equation
  have hequation' := h'.equation
  rw [hgenerator] at hequation
  rw [hgenerator', hcommitment, hpoint] at hequation'
  rw [sub_smul, sub_smul, hequation, hequation', add_sub_add_left_eq_sub]

/-- What the first message `commitment` of proofs for a point leaves open. -/
structure Pins (point commitment : Point) : Prop where
  /-- The identity convinces nobody. -/
  identity : point = 0 ∨ commitment = 0 →
    ∀ (name : String) (version : Version) (t : Transcript) (z : Scalar),
    Proof.verify ⟨commitment, z⟩ (.named name point version) t ≠ .ok ()
  /-- To each challenge there is one response. -/
  response : point ≠ 0 → commitment ≠ 0 →
    ∀ (name : String) (version : Version) (t : Transcript) (e : Scalar),
    challenge (.named name point version) commitment t = .ok e →
      ∃! z, Proof.verify ⟨commitment, z⟩ (.named name point version) t = .ok ()
  /-- Two accepted responses are equal and to one challenge, or they give the discrete logarithm of
  the point. -/
  extract : ∀ (name name' : String) (version version' : Version) (t t' : Transcript)
    (e e' z z' : Scalar),
    challenge (.named name point version) commitment t = .ok e →
    challenge (.named name' point version') commitment t' = .ok e' →
    Proof.verify ⟨commitment, z⟩ (.named name point version) t = .ok () →
    Proof.verify ⟨commitment, z'⟩ (.named name' point version') t' = .ok () →
      (e = e' ∧ z = z') ∨ (e ≠ e' ∧ point = ((z - z') / (e - e')) • Point.generator)

theorem pins (point commitment : Point) : Pins point commitment where
  identity h name version t z hverify := by
    obtain ⟨e, -, hanswers⟩ := verify_eq_ok_iff.1 hverify
    exact h.elim hanswers.point_ne hanswers.commitment_ne
  response hpoint hcommitment name version t e he := by
    have hresponse := existsUnique_answers (s := .named name point version) rfl hpoint hcommitment e
    exact (existsUnique_congr fun z => verify_iff_answers ⟨commitment, z⟩ he).2 hresponse
  extract name name' version version' t t' e e' z z' he he' hverify hverify' := by
    have hanswers := (verify_iff_answers ⟨commitment, z⟩ he).1 hverify
    have hanswers' := (verify_iff_answers ⟨commitment, z'⟩ he').1 hverify'
    have hsub := hanswers.sub_smul_eq hanswers' rfl rfl rfl rfl
    change (z - z') • Point.generator = (e - e') • point at hsub
    by_cases hchallenges : e = e'
    · rw [hchallenges, sub_self, zero_smul] at hsub
      have hresponses := (smul_eq_zero.1 hsub).resolve_right Point.generator_ne_zero
      exact .inl ⟨hchallenges, sub_eq_zero.1 hresponses⟩
    · refine .inr ⟨hchallenges, ?_⟩
      rw [div_eq_inv_mul, mul_smul, hsub, inv_smul_smul₀ (sub_ne_zero.2 hchallenges)]

theorem pins_generator :
    let session : Session := .new "test" .secp256k1 ⟨[]⟩ 1 []
    let statement : Statement := .named "secp256k1" Point.generator .v1
    ∃ e e', challenge statement Point.generator (session.transcriptFor 0) = .ok e ∧
      challenge statement Point.generator (session.transcriptFor 1) = .ok e' ∧
      (∃! z, Proof.verify ⟨Point.generator, z⟩ statement (session.transcriptFor 0) = .ok ()) ∧
      (∀ z, Proof.verify ⟨0, z⟩ statement (session.transcriptFor 0) ≠ .ok ()) ∧
      ((e = e' ∧ 1 + e = 1 + e') ∨
        (e ≠ e' ∧ Point.generator = ((1 + e - (1 + e')) / (e - e')) • Point.generator)) := by
  intro session statement
  obtain ⟨e, he⟩ : ∃ e, challenge statement Point.generator (session.transcriptFor 0) = .ok e :=
    exists_challengeOf_v1 _
  obtain ⟨e', he'⟩ : ∃ e, challenge statement Point.generator (session.transcriptFor 1) = .ok e :=
    exists_challengeOf_v1 _
  have hverify (sender : ℕ) (e : Scalar)
      (he : challenge statement Point.generator (session.transcriptFor sender) = .ok e) :
      Proof.verify ⟨Point.generator, 1 + e⟩ statement (session.transcriptFor sender) = .ok () := by
    refine (verify_iff_answers ⟨Point.generator, 1 + e⟩ he).2 ⟨?_, ?_, ?_⟩
    · exact Point.generator_ne_zero
    · exact Point.generator_ne_zero
    · change (1 + e) • Point.generator = Point.generator + e • Point.generator
      rw [add_smul, one_smul]
  have h := pins Point.generator Point.generator
  refine ⟨e, e', he, he', ?_, ?_, ?_⟩
  · exact h.response Point.generator_ne_zero Point.generator_ne_zero _ _ _ e he
  · exact (pins Point.generator 0).identity (.inr rfl) _ _ _
  · exact h.extract _ _ _ _ _ _ e e' _ _ he he' (hverify 0 e he) (hverify 1 e' he')

end ThresholdKeys.Schnorr
