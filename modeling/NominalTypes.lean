import NominalTypes.Definition
import NominalTypes.TypeExpr
import NominalTypes.TypeExpr.Equality
import NominalTypes.TypeExpr.Fingerprint
import NominalTypes.TypeExpr.Display
import NominalTypes.TypeExpr.Occurrences
import NominalTypes.Fault
import NominalTypes.Substitution
import NominalTypes.Settings
import NominalTypes.Settings.Toml
import NominalTypes.Toml.Scalar
import NominalTypes.Toml.Document
import NominalTypes.Universe
import NominalTypes.Universe.Display
import NominalTypes.Lookup
import NominalTypes.Assignability
import NominalTypes.Instantiation
import NominalTypes.Conformance
import NominalTypes.Draft
import NominalTypes.Session
import NominalTypes.Proofs.Occurrences
import NominalTypes.Proofs.Equality
import NominalTypes.Proofs.Fingerprint
import NominalTypes.Proofs.Outcome
import NominalTypes.Proofs.Substitution
import NominalTypes.Proofs.Supertypes
import NominalTypes.Proofs.Coherence
import NominalTypes.Proofs.Lookup
import NominalTypes.Proofs.Drafts
import NominalTypes.Proofs.Acyclicity
import NominalTypes.Proofs.Sessions
import NominalTypes.Proofs.Assignability
import NominalTypes.Proofs.Replay
import NominalTypes.Proofs.Subtyping
import NominalTypes.Proofs.Termination
import NominalTypes.Proofs.Conformance
import NominalTypes.Proofs.Requirements
import NominalTypes.Proofs.Composition
import NominalTypes.Proofs.Replacement
import NominalTypes.Proofs.Members
import NominalTypes.Proofs.Limits
import NominalTypes.Proofs.Specialization.Levels
import NominalTypes.Proofs.Specialization.Lookup
import NominalTypes.Proofs.Specialization.Conformance
import NominalTypes.Proofs.Specialization.Subtyping
import NominalTypes.Proofs.PropertyPaths
import NominalTypes.Proofs.Contents
import NominalTypes.Proofs.Exactness
import NominalTypes.Proofs.Bounds.Fitting
import NominalTypes.Proofs.Bounds.Specialization
import NominalTypes.Proofs.Bounds.Sessions
import NominalTypes.Proofs.Bounds.Survival
import NominalTypes.Proofs.Stability
import NominalTypes.Proofs.Closing
import NominalTypes.Proofs.Substitutability
import NominalTypes.Proofs.SearchOrder
import NominalTypes.Proofs.Scoping
import NominalTypes.Proofs.Interchange
import NominalTypes.Proofs.CanonicalNames
import NominalTypes.Proofs.Nullability
import NominalTypes.Proofs.Overloading
import NominalTypes.Proofs.AttachedBounds
import NominalTypes.Proofs.BindingOrder
import NominalTypes.Proofs.ClassViews
