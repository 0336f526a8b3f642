import ClassAssembler.Listing.Text
import ClassAssembler.Plan.Assembly
import ClassAssembler.Proofs.Build.Confined
import ClassAssembler.Proofs.Layout.Pruning
import ClassAssembler.Proofs.Descriptor.RoundTrip
import ClassAssembler.Proofs.Build.Unboxing
import ClassAssembler.Proofs.Layout.Tour
import ClassAssembler.Proofs.Control.Preservation
import ClassAssembler.Proofs.Layout.Slots
import ClassAssembler.Proofs.Class.AccessorCalls
import ClassAssembler.Proofs.Code.Placement
import ClassAssembler.Proofs.Listing.Protocol
import ClassAssembler.Proofs.Layout.Visits
