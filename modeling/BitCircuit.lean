import BitCircuit.Size
import BitCircuit.Bytes
import BitCircuit.Random
import BitCircuit.Circuit.Instantiate
import BitCircuit.Circuit.Stats
import BitCircuit.Aes.KeySchedule
import BitCircuit.Catalogue.Basic
import BitCircuit.CommandLine
import BitCircuit.Main
import BitCircuit.Proofs.Instantiate
import BitCircuit.Proofs.Integer.Adder
import BitCircuit.Proofs.Aes.Cipher
import BitCircuit.Proofs.Frame
import BitCircuit.Proofs.Replay
import BitCircuit.Proofs.Catalogue
import BitCircuit.Proofs.Ready
import BitCircuit.Proofs.Integer.AdderCompletion
import BitCircuit.Proofs.Integer.Completion
import BitCircuit.Proofs.Finished
import BitCircuit.Proofs.Feasibility
import BitCircuit.Proofs.Evaluator
import BitCircuit.Proofs.Aes.Permutation
import BitCircuit.Proofs.Safety
import BitCircuit.Proofs.SingleAssignment
import BitCircuit.Proofs.FoldedConstants
import BitCircuit.Proofs.Appending
import BitCircuit.Proofs.Integer.Product
import BitCircuit.Proofs.Integer.Quotient
import BitCircuit.Proofs.Integer.SumBit
import BitCircuit.Proofs.Integer.Order
import BitCircuit.Proofs.Integer.Written
import BitCircuit.Proofs.Aes.Written
import BitCircuit.Proofs.Unallocated
import BitCircuit.Proofs.RefusedGates
import BitCircuit.Proofs.Integer.Sharing
import BitCircuit.Proofs.Level
import BitCircuit.Proofs.Integer.AdderDepth
import BitCircuit.Proofs.Integer.AdderSize
import BitCircuit.Proofs.Integer.ConstantOperand
import BitCircuit.Proofs.Integer.SignRoundTrip
import BitCircuit.Proofs.Integer.Equality
import BitCircuit.Proofs.Integer.BitParallel
import BitCircuit.Proofs.Integer.Carries
import BitCircuit.Proofs.Conversions
import BitCircuit.Proofs.SignedWords
import BitCircuit.Proofs.Aes.Cost
import BitCircuit.Proofs.Room
