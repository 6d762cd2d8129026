import Multiparty.Bytes
import Multiparty.Capacity
import Multiparty.Random.WordSource
import Multiparty.Random.Scripted
import Multiparty.Random.ChaCha
import Multiparty.Hash.Sha3
import Multiparty.Ring.Basic
import Multiparty.Ring.Mersenne
import Multiparty.Ring.Word
import Multiparty.Ring.Binary
import Multiparty.Error
import Multiparty.Codec
import Multiparty.Interpolation
import Multiparty.Share.Basic
import Multiparty.Share.Authenticated
import Multiparty.Share.Replicated
import Multiparty.Share.Threshold
import Multiparty.Dealer.Basic
import Multiparty.Dealer.Plans
import Multiparty.Preprocessing.Bundle
import Multiparty.Preprocessing.Supply
import Multiparty.Queue
import Multiparty.Session
import Multiparty.Commitment
import Multiparty.Config.Basic
import Multiparty.Opening.Basic
import Multiparty.Opening.MacCheck
import Multiparty.Opening.Replicated
import Multiparty.Opening.Threshold
import Multiparty.Multiplication
import Multiparty.Processor
import Multiparty.Circuit.Basic
import Multiparty.Circuit.Buffer
import Multiparty.Circuit.Future
import Multiparty.Circuit.Fold
import Multiparty.Circuit.Expression
import Multiparty.Executor
import Multiparty.Scheduler
import Multiparty.Json.Reader
import Multiparty.Config.File
import Multiparty.Storage.Basic
import Multiparty.Storage.Shares
import Multiparty.Network.Pipes
import Multiparty.Network.Transport
import Multiparty.Network.Fault
import Multiparty.Network.Run
import Multiparty.Network.Frame
import Multiparty.Network.Step
import Multiparty.Setup
import Multiparty.Trial
import Multiparty.CommandLine
import Multiparty.Main
import Multiparty.Suite
import Multiparty.Preprocessing.Alteration
import Multiparty.Network.Stages
import Multiparty.Machine.Registers
import Multiparty.Machine.Basic
import Multiparty.Proofs.Ring.Laws
import Multiparty.Proofs.Ring.Mersenne
import Multiparty.Proofs.Ring.Word
import Multiparty.Proofs.Ring.BinaryPolynomial
import Multiparty.Proofs.Ring.BinaryField
import Multiparty.Proofs.Ring.BinaryArithmetic
import Multiparty.Proofs.PartyPoints
import Multiparty.Proofs.Codec
import Multiparty.Proofs.Session
import Multiparty.Proofs.Commitment
import Multiparty.Proofs.Transcript
import Multiparty.Proofs.CoinToss
import Multiparty.Proofs.Network.Completion
import Multiparty.Proofs.Opening.Batch
import Multiparty.Proofs.Opening.Redundancy
import Multiparty.Proofs.Opening.Threshold
import Multiparty.Proofs.Opening.Replicated
import Multiparty.Proofs.History
import Multiparty.Proofs.Opening.Steps
import Multiparty.Proofs.Opening.HashCheck
import Multiparty.Proofs.Opening.Residual
import Multiparty.Proofs.Opening.MacCheck
import Multiparty.Proofs.Joint.Check
import Multiparty.Proofs.Opening.Pending
import Multiparty.Proofs.Opening.Discard
import Multiparty.Proofs.Joint.Refinement
import Multiparty.Proofs.Network.InOrder
import Multiparty.Proofs.Multiplication.Queues
import Multiparty.Proofs.Opening.Refusal
import Multiparty.Proofs.Joint.FreshOpeners
import Multiparty.Proofs.Multiplication.Interleaving
import Multiparty.Proofs.Opening.Stalls
import Multiparty.Proofs.Circuit.Trace
import Multiparty.Proofs.Circuit.Execution
import Multiparty.Proofs.Circuit.Polling
import Multiparty.Proofs.Suite
import Multiparty.Proofs.Scheduler
import Multiparty.Proofs.Circuit.Unfolding
import Multiparty.Proofs.Joint.Scheduling
import Multiparty.Proofs.Joint.OpeningRun
import Multiparty.Proofs.Opening.Poisoning
import Multiparty.Proofs.Dealer.Secrecy
import Multiparty.Proofs.Dealer.Recovery
import Multiparty.Proofs.Preprocessing.Lockstep
import Multiparty.Proofs.Preprocessing.Exhaustion
import Multiparty.Proofs.Storage.Layout
import Multiparty.Proofs.Storage.Bundle
import Multiparty.Proofs.Network.Schedule
import Multiparty.Proofs.Network.Progress
import Multiparty.Proofs.Network.Collectives
import Multiparty.Proofs.Joint.ThresholdExchange
import Multiparty.Proofs.Payloads
import Multiparty.Proofs.Network.Limit
import Multiparty.Proofs.Opening.Payloads
import Multiparty.Proofs.Trial.Payloads
import Multiparty.Proofs.Trial.Outcome
import Multiparty.Proofs.Opening.FailedExchange
import Multiparty.Proofs.Joint.InputRun
import Multiparty.Proofs.Joint.LocalArithmetic
import Multiparty.Proofs.CanonicalForm
import Multiparty.Proofs.Opening.Settings
import Multiparty.Proofs.Opening.Parameters
import Multiparty.Proofs.Leftovers
import Multiparty.Proofs.Circuit.Fold
import Multiparty.Proofs.Joint.Together
import Multiparty.Proofs.Joint.Fold
