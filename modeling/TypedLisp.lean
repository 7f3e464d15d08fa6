import TypedLisp.Expr.Printer
import TypedLisp.Main
import TypedLisp.Proofs.Aborting.Equivalence
import TypedLisp.Proofs.Closures.Sessions
import TypedLisp.Proofs.Heap.EncodedOrder
import TypedLisp.Proofs.Heap.Liveness
import TypedLisp.Proofs.Inference.Ascription
import TypedLisp.Proofs.Inference.LetExpansion
import TypedLisp.Proofs.Inference.Parts
import TypedLisp.Proofs.Linkage.References
import TypedLisp.Proofs.Machine.BuiltCollections
import TypedLisp.Proofs.Machine.Division
import TypedLisp.Proofs.Namespaces.Frames
import TypedLisp.Proofs.Namespaces.NominalTypes
import TypedLisp.Proofs.Namespaces.Options
import TypedLisp.Proofs.Reading.Types
import TypedLisp.Proofs.Relocation.Sessions
import TypedLisp.Proofs.Renaming.Bijections
import TypedLisp.Proofs.Scoping.Resolution
import TypedLisp.Proofs.Session.Arithmetic
import TypedLisp.Proofs.Session.Equality
import TypedLisp.Proofs.Session.NamedCalls
import TypedLisp.Proofs.Session.PrintedValues
import TypedLisp.Proofs.TypeForms.Kinds
