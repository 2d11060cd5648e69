import Cascade.Extension
import Cascade.Main
import Cascade.Proofs.Absence
import Cascade.Proofs.AddressArithmetic
import Cascade.Proofs.Currying
import Cascade.Proofs.DefaultValues
import Cascade.Proofs.DocumentIdentities
import Cascade.Proofs.Extremes
import Cascade.Proofs.FieldInsertion
import Cascade.Proofs.FilledTemplates
import Cascade.Proofs.ExactPrinting
import Cascade.Proofs.InlinedTemplates
import Cascade.Proofs.JsonDocuments
import Cascade.Proofs.LambdaCalls
import Cascade.Proofs.LocalErrors
import Cascade.Proofs.LocatedErrors
import Cascade.Proofs.LoopRows
import Cascade.Proofs.MergedLists
import Cascade.Proofs.NestedCascade
import Cascade.Proofs.PartialCascades
import Cascade.Proofs.ReferenceCycles
import Cascade.Proofs.ReportUnion
import Cascade.Proofs.RoundTrip
import Cascade.Proofs.StateDocuments
import Cascade.Proofs.TemporaryFields
import Cascade.Proofs.UnpickedBranches
import Cascade.Proofs.Halting
import Cascade.Proofs.TameCascades
