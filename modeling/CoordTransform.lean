import CoordTransform.Affine.Basic
import CoordTransform.Affine.Inverse
import CoordTransform.Affine.Rounding
import CoordTransform.BoundingBox
import CoordTransform.Builder
import CoordTransform.CommandLine.Arguments
import CoordTransform.CommandLine.Failure
import CoordTransform.CommandLine.Outcome
import CoordTransform.CommandLine.Run
import CoordTransform.CommandLine.Task
import CoordTransform.Config
import CoordTransform.Coordinate
import CoordTransform.Coordinate.Text
import CoordTransform.Datum.BursaWolf
import CoordTransform.Datum.Catalog
import CoordTransform.Datum.Document
import CoordTransform.Datum.Search
import CoordTransform.Decimal.Binary
import CoordTransform.Decimal.Fraction
import CoordTransform.Decimal.Layout
import CoordTransform.Decimal.Reading
import CoordTransform.Decimal.Shortest
import CoordTransform.DenseMatrix.Arithmetic
import CoordTransform.DenseMatrix.Basic
import CoordTransform.DenseMatrix.Elimination
import CoordTransform.DenseMatrix.InPlace
import CoordTransform.DenseMatrix.Inverse
import CoordTransform.Element.Access
import CoordTransform.Element.Basic
import CoordTransform.Element.OfTransform
import CoordTransform.Element.Parser
import CoordTransform.Element.Printer
import CoordTransform.Element.ToTransform
import CoordTransform.Error
import CoordTransform.Geodesy.Ellipsoid
import CoordTransform.Geodesy.Geodesic
import CoordTransform.Geodesy.Trigonometry
import CoordTransform.Json.Basic
import CoordTransform.Json.Number
import CoordTransform.Json.Parser
import CoordTransform.Json.Record
import CoordTransform.Main
import CoordTransform.Method.Basic
import CoordTransform.Method.Matrix
import CoordTransform.Parameters
import CoordTransform.Proofs.Affine.Rounding
import CoordTransform.Proofs.Builder.Concatenation
import CoordTransform.Proofs.Builder.Dimensions
import CoordTransform.Proofs.Builder.Growth
import CoordTransform.Proofs.Builder.Pool
import CoordTransform.Proofs.Builder.Reduction
import CoordTransform.Proofs.Builder.Requests
import CoordTransform.Proofs.Builder.Unpooled
import CoordTransform.Proofs.Computation
import CoordTransform.Proofs.Datum.Candidates
import CoordTransform.Proofs.Datum.ClosedForm
import CoordTransform.Proofs.Datum.Consistency
import CoordTransform.Proofs.Datum.Document
import CoordTransform.Proofs.Double
import CoordTransform.Proofs.Double.Magnitude
import CoordTransform.Proofs.Double.Nearest
import CoordTransform.Proofs.Double.Packing
import CoordTransform.Proofs.Double.Rounding
import CoordTransform.Proofs.Double.Signs
import CoordTransform.Proofs.Double.WholeNumbers
import CoordTransform.Proofs.Element.Acceptance
import CoordTransform.Proofs.Element.Brackets
import CoordTransform.Proofs.Element.Completion
import CoordTransform.Proofs.Element.Expressible
import CoordTransform.Proofs.Element.FixedPoint
import CoordTransform.Proofs.Element.Grammar
import CoordTransform.Proofs.Element.Invertibility
import CoordTransform.Proofs.Element.Locality
import CoordTransform.Proofs.Element.Meaning
import CoordTransform.Proofs.Element.NormalForms
import CoordTransform.Proofs.Element.Places
import CoordTransform.Proofs.Element.Positions
import CoordTransform.Proofs.Element.Productions
import CoordTransform.Proofs.Element.Reachable
import CoordTransform.Proofs.Element.Recognition
import CoordTransform.Proofs.Element.Refusal
import CoordTransform.Proofs.Element.Reparsing
import CoordTransform.Proofs.Element.Rereading
import CoordTransform.Proofs.Element.RoundTrip
import CoordTransform.Proofs.Element.Scanning
import CoordTransform.Proofs.Element.Sessions
import CoordTransform.Proofs.Element.Similarity
import CoordTransform.Proofs.Element.Writing
import CoordTransform.Proofs.ExactArithmetic
import CoordTransform.Proofs.Geodesy.Ellipsoid
import CoordTransform.Proofs.Matrix.Algebra
import CoordTransform.Proofs.Matrix.Determinant
import CoordTransform.Proofs.Matrix.Elimination
import CoordTransform.Proofs.Matrix.EliminationInverse
import CoordTransform.Proofs.Matrix.InPlace
import CoordTransform.Proofs.Matrix.Inverse
import CoordTransform.Proofs.Method.Description
import CoordTransform.Proofs.Method.Entries
import CoordTransform.Proofs.Method.Matrix
import CoordTransform.Proofs.Method.Parameters
import CoordTransform.Proofs.Method.RoundTrip
import CoordTransform.Proofs.Projection
import CoordTransform.Proofs.Rational
import CoordTransform.Proofs.Shift
import CoordTransform.Proofs.Transform.DoubleInverse
import CoordTransform.Proofs.Transform.Homogeneous
import CoordTransform.Proofs.Transform.Inverse
import CoordTransform.Proofs.Transform.Relation
import CoordTransform.Proofs.Transform.Safety
import CoordTransform.Proofs.Transform.Sameness
import CoordTransform.Proofs.Transform.Settling
import CoordTransform.Proofs.Transform.Simplification
import CoordTransform.Proofs.Transform.Steps
import CoordTransform.Proofs.Transform.WellFormed
import CoordTransform.Registry
import CoordTransform.Scalar
import CoordTransform.Scalar.Double
import CoordTransform.Text.Blank
import CoordTransform.Text.Letters
import CoordTransform.Text.Split
import CoordTransform.Transform.Application
import CoordTransform.Transform.Basic
import CoordTransform.Transform.Homogeneous
import CoordTransform.Transform.Inverse
import CoordTransform.Proofs.Affine.Matrix
import CoordTransform.Proofs.Affine.Bounds
import CoordTransform.Proofs.Affine.Regularity
import CoordTransform.Proofs.Double.Range
import CoordTransform.Proofs.FiniteInverse
import CoordTransform.Proofs.Matrix.Finite
import CoordTransform.Proofs.Coordinate.Filtering
import CoordTransform.Proofs.Coordinate.Forms
import CoordTransform.Proofs.Coordinate.RoundTrip
import CoordTransform.Proofs.Datum.RoundTrip
import CoordTransform.Proofs.Decimal.Grammar
import CoordTransform.Proofs.Decimal.Layout
import CoordTransform.Proofs.Decimal.Nearest
import CoordTransform.Proofs.Decimal.Shortest
import CoordTransform.Proofs.Double.Interval
import CoordTransform.Proofs.Text
import CoordTransform.Proofs.Registry
import CoordTransform.Proofs.CommandLine
import CoordTransform.Proofs.Double.Ordered
import CoordTransform.Proofs.Geodesy.Azimuth
import CoordTransform.Proofs.Method.Settings
import CoordTransform.Proofs.Element.RepeatedParameters
