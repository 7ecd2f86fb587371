import ThresholdKeys.Engine.Drill
import ThresholdKeys.Network.Steps
import ThresholdKeys.Proofs.Arrival
import ThresholdKeys.Proofs.Calls
import ThresholdKeys.Proofs.Commitment.Binding
import ThresholdKeys.Proofs.Commitment.Flattening
import ThresholdKeys.Proofs.Dispatch
import ThresholdKeys.Proofs.Engine.Stability
import ThresholdKeys.Proofs.FaultRound
import ThresholdKeys.Proofs.Keygen.Agreement
import ThresholdKeys.Proofs.Keygen.Backlog
import ThresholdKeys.Proofs.Keygen.Binding
import ThresholdKeys.Proofs.Keygen.Blame
import ThresholdKeys.Proofs.Keygen.Correctness
import ThresholdKeys.Proofs.Keygen.Integrity
import ThresholdKeys.Proofs.Party.Canonical
import ThresholdKeys.Proofs.Party.EvaluationPoint
import ThresholdKeys.Proofs.Reshare.Blame
import ThresholdKeys.Proofs.Reshare.Committed
import ThresholdKeys.Proofs.Reshare.Scope
import ThresholdKeys.Proofs.Retention
import ThresholdKeys.Proofs.Schnorr.Acceptance
import ThresholdKeys.Proofs.Session
import ThresholdKeys.Proofs.Sharing.Evaluation
import ThresholdKeys.Proofs.Sharing.Reconstruction
import ThresholdKeys.Proofs.Sharing.Secrecy
import ThresholdKeys.Proofs.Sharing.Signing
import ThresholdKeys.Proofs.Wire.Arrival
import ThresholdKeys.Proofs.Wire.Saved
