import Rfs.Proofs.JournalProofs
import Rfs.Proofs.IsolationProofs
import Rfs.Proofs.CollectProofs
import Rfs.Lib.References
import Rfs.FuseSpec
import Rfs.Proofs.NamesProofs
import Rfs.Proofs.LinkProofs
import Rfs.Proofs.OpenProofs
import Rfs.Proofs.EntryProofs
import Rfs.Proofs.PassProofs
import Rfs.Proofs.DeleteProofs
import Rfs.Proofs.ExtentProofs
import Rfs.Proofs.HandlerProofs
import Rfs.Proofs.RecoveryProofs
import Rfs.Proofs.RemovalProofs
import Rfs.Lib.Agenda
import Rfs.Proofs.ChoreProofs
import Rfs.Proofs.BatchProofs
import Rfs.Proofs.FileProofs
import Rfs.Proofs.AncestryProofs
import Rfs.Lib.PointerWalk
import Rfs.Proofs.ChainProofs
import Rfs.Proofs.CoherenceProofs
import Rfs.BlockLayout
import Rfs.Proofs.LayoutProofs
import Rfs.Proofs.DecodeProofs
import Rfs.CapacitySpec
import Rfs.Proofs.CapacityProofs
import Rfs.Proofs.DrivenProofs
import Rfs.CrashSpec
import Rfs.Proofs.CrashProofs
import Rfs.Proofs.DurabilityProofs
import Rfs.Lib.Lockstep
import Rfs.Proofs.AlikeProofs
import Rfs.Proofs.RemountProofs
import Rfs.Proofs.RefineProofs
import Rfs.ServerSpec
