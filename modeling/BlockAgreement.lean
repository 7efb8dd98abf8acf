import BlockAgreement.Crypto.Identity
import BlockAgreement.Describe
import BlockAgreement.Engine.Node
import BlockAgreement.Json.Records
import BlockAgreement.Simulation.Expiries
import BlockAgreement.Simulation.Intake
import BlockAgreement.Simulation.Network
import BlockAgreement.Proofs.Ballots
import BlockAgreement.Proofs.Certificates
import BlockAgreement.Proofs.Chain
import BlockAgreement.Proofs.Table
import BlockAgreement.Proofs.Gathering
import BlockAgreement.Proofs.Tally
import BlockAgreement.Proofs.Round
import BlockAgreement.Proofs.Moves
import BlockAgreement.Proofs.Instance
import BlockAgreement.Proofs.Run
import BlockAgreement.Proofs.Evidence
import BlockAgreement.Proofs.Voting
import BlockAgreement.Proofs.LastRound
import BlockAgreement.Proofs.Locking
import BlockAgreement.Proofs.Delivery
import BlockAgreement.Proofs.Network
import BlockAgreement.Proofs.Agreement
import BlockAgreement.Proofs.Acceptance
import BlockAgreement.Proofs.Conduct
import BlockAgreement.Proofs.Alone
import BlockAgreement.Proofs.Rlp
import BlockAgreement.Proofs.Frames
import BlockAgreement.Proofs.Canonical
import BlockAgreement.Proofs.CanonicalFrames
import BlockAgreement.Proofs.Heights
import BlockAgreement.Proofs.Resting
import BlockAgreement.Proofs.Climbing
import BlockAgreement.Proofs.Sole
import BlockAgreement.Proofs.Roles
import BlockAgreement.Proofs.Keeps
import BlockAgreement.Proofs.Steady
import BlockAgreement.Proofs.Conflict
import BlockAgreement.Proofs.Outsiders
import BlockAgreement.Proofs.Pace
import BlockAgreement.Proofs.Range
import BlockAgreement.Proofs.Ledger
import BlockAgreement.Proofs.Stopping
import BlockAgreement.Proofs.Abreast
import BlockAgreement.Proofs.Working
import BlockAgreement.Proofs.Redelivery
import BlockAgreement.Proofs.Standing
import BlockAgreement.Proofs.Order
import BlockAgreement.Proofs.Justified
import BlockAgreement.Proofs.Evidenced
import BlockAgreement.Proofs.Assembly
import BlockAgreement.Proofs.Collected
import BlockAgreement.Proofs.Waiting
import BlockAgreement.Proofs.Handover
import BlockAgreement.Proofs.Turns
import BlockAgreement.Proofs.Clock
import BlockAgreement.Proofs.Succession
import BlockAgreement.Proofs.Binding
import BlockAgreement.Proofs.Counting
import BlockAgreement.Proofs.Rotation
