import CilEdit.Bytes.Scalar
import CilEdit.Code.OpcodeLemmas
import CilEdit.Journal.Patching
import CilEdit.Main
import CilEdit.Proofs.Acceptance
import CilEdit.Proofs.Callees
import CilEdit.Proofs.Commands
import CilEdit.Proofs.DeclaredDepth
import CilEdit.Proofs.Descriptors
import CilEdit.Proofs.Failures
import CilEdit.Proofs.GuardedBodies
import CilEdit.Proofs.GuardedImages
import CilEdit.Proofs.Handles
import CilEdit.Proofs.Interning
import CilEdit.Proofs.KeyChecks
import CilEdit.Proofs.Labels
import CilEdit.Proofs.Loaded
import CilEdit.Proofs.Locating
import CilEdit.Proofs.NewRows
import CilEdit.Proofs.Overloads
import CilEdit.Proofs.Overwriting
import CilEdit.Proofs.Patching
import CilEdit.Proofs.Placement
import CilEdit.Proofs.Places
import CilEdit.Proofs.Reapplying
import CilEdit.Proofs.Reencoding
import CilEdit.Proofs.Reloading
import CilEdit.Proofs.Repeating
import CilEdit.Proofs.Replacing
import CilEdit.Proofs.Resaving
import CilEdit.Proofs.Resizing
import CilEdit.Proofs.Resolving
import CilEdit.Proofs.Saving
import CilEdit.Proofs.Scanning
import CilEdit.Proofs.Serialization
import CilEdit.Proofs.Sessions
import CilEdit.Proofs.Skipping
import CilEdit.Proofs.Splicing
import CilEdit.Proofs.Staleness
import CilEdit.Proofs.StoredRows
import CilEdit.Proofs.StreamCodec
import CilEdit.Proofs.Trailing
import CilEdit.Proofs.Widening
import CilEdit.Sample.Game
