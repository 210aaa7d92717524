import TorqueScript.Command.Session
import TorqueScript.Main
import TorqueScript.Proofs.BlockTree
import TorqueScript.Proofs.Coverage
import TorqueScript.Proofs.NextRound
import TorqueScript.Proofs.RegroupedValues
import TorqueScript.Proofs.FileLayout
import TorqueScript.Proofs.Stages
import TorqueScript.Proofs.Scopes
import TorqueScript.Proofs.Framing
import TorqueScript.Proofs.FunctionBodies
import TorqueScript.Proofs.AheadJumps
import TorqueScript.Proofs.Conditionals
import TorqueScript.Proofs.Assembly
import TorqueScript.Proofs.FunctionContexts
import TorqueScript.Proofs.Objects
import TorqueScript.Proofs.FunctionNesting
import TorqueScript.Proofs.Uncrossed
import TorqueScript.Proofs.LoopNesting
import TorqueScript.Proofs.CallConservation
import TorqueScript.Proofs.JumpTargets
import TorqueScript.Proofs.AddressOrder
import TorqueScript.Proofs.Truncation
import TorqueScript.Proofs.ContinuePoints
import TorqueScript.Proofs.Inputs
import TorqueScript.Proofs.CheckedDecompiling
import TorqueScript.Proofs.Tiling
import TorqueScript.Proofs.Literals
import TorqueScript.Proofs.Signs
import TorqueScript.Proofs.Indentation
import TorqueScript.Proofs.Packages
import TorqueScript.Proofs.ListingLines
import TorqueScript.Proofs.Accounts
import TorqueScript.Proofs.PlainRebuilding
