import GradualTypes.Acceptance
import GradualTypes.Config.Load
import GradualTypes.Extract
import GradualTypes.Generalize
import GradualTypes.LogFormat
import GradualTypes.Proofs.Benevolence
import GradualTypes.Proofs.DepthLimit
import GradualTypes.Proofs.Distributivity
import GradualTypes.Proofs.Exclusion
import GradualTypes.Proofs.GeneralizedTypes
import GradualTypes.Proofs.HashConsing
import GradualTypes.Proofs.Leniency
import GradualTypes.Proofs.LowerBounds
import GradualTypes.Proofs.RelatedIntersections
import GradualTypes.Proofs.RelatedUnions
import GradualTypes.Proofs.StoredIntersections
import GradualTypes.Proofs.UnionGrouping
import GradualTypes.Proofs.UnionValues
import GradualTypes.Render
import GradualTypes.Session
import GradualTypes.Text.Pool
import GradualTypes.Proofs.ArrangedDistribution
import GradualTypes.Proofs.Expressions
import GradualTypes.Proofs.Decorations
import GradualTypes.Proofs.Bases
import GradualTypes.Proofs.Callability
import GradualTypes.Proofs.CallableTarget
import GradualTypes.Proofs.MemberSets
import GradualTypes.Proofs.Propagation
import GradualTypes.Proofs.FixedPoints
import GradualTypes.Proofs.History
import GradualTypes.Proofs.Inheritance
import GradualTypes.Proofs.ConcreteShapes
import GradualTypes.Proofs.CacheTexts
import GradualTypes.Proofs.Rewrites
import GradualTypes.Proofs.ExtractedShapes
import GradualTypes.Proofs.Pools
import GradualTypes.Proofs.MergedRanges
import GradualTypes.Proofs.ShapeMaps
import GradualTypes.Proofs.KeyTexts
import GradualTypes.Proofs.Termination
