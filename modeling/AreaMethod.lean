import AreaMethod.CommandLine.Options
import AreaMethod.CommandLine.Run
import AreaMethod.Decimal
import AreaMethod.Decimal.Shortest
import AreaMethod.Elimination
import AreaMethod.Elimination.Eliminator
import AreaMethod.Elimination.Linear
import AreaMethod.Elimination.Ratio
import AreaMethod.Elimination.Usage
import AreaMethod.Expr.Basic
import AreaMethod.Expr.Canonical
import AreaMethod.Expr.Expansion
import AreaMethod.Expr.Measure
import AreaMethod.Expr.Reader
import AreaMethod.Expr.Rules
import AreaMethod.Expr.Simplify
import AreaMethod.Expr.SingleFraction
import AreaMethod.Fault
import AreaMethod.Figure
import AreaMethod.Frame
import AreaMethod.Json
import AreaMethod.Json.Reader
import AreaMethod.Json.Token
import AreaMethod.Json.Writer
import AreaMethod.Main
import AreaMethod.Placement
import AreaMethod.Placement.Keystream
import AreaMethod.Point
import AreaMethod.Polynomial
import AreaMethod.Problem
import AreaMethod.Problem.Goal
import AreaMethod.Problem.Step
import AreaMethod.Proof.Attempt
import AreaMethod.Proof.Form
import AreaMethod.Proof.Oracle
import AreaMethod.Proof.Report
import AreaMethod.Proofs.Accounts
import AreaMethod.Proofs.CanonicalForm
import AreaMethod.Proofs.CanonicalValue
import AreaMethod.Proofs.Closure
import AreaMethod.Proofs.Computation
import AreaMethod.Proofs.Consultation
import AreaMethod.Proofs.Decision
import AreaMethod.Proofs.DroppedParts
import AreaMethod.Proofs.EliminationValue
import AreaMethod.Proofs.Exponents
import AreaMethod.Proofs.Faults
import AreaMethod.Proofs.Figures
import AreaMethod.Proofs.Fractions
import AreaMethod.Proofs.FrameReduction
import AreaMethod.Proofs.FrameValue
import AreaMethod.Proofs.KeyOrder
import AreaMethod.Proofs.Keys
import AreaMethod.Proofs.KnownTriples
import AreaMethod.Proofs.LaurentPolynomial
import AreaMethod.Proofs.Limits
import AreaMethod.Proofs.LinearElimination
import AreaMethod.Proofs.MergedPowers
import AreaMethod.Proofs.NormalForm
import AreaMethod.Proofs.Normalization
import AreaMethod.Proofs.Outcome
import AreaMethod.Proofs.Plane
import AreaMethod.Proofs.PointRemoval
import AreaMethod.Proofs.Poles
import AreaMethod.Proofs.PolynomialIdentity
import AreaMethod.Proofs.PolynomialText
import AreaMethod.Proofs.PolynomialValue
import AreaMethod.Proofs.Printing
import AreaMethod.Proofs.Questions
import AreaMethod.Proofs.RatioElimination
import AreaMethod.Proofs.RatioFree
import AreaMethod.Proofs.Reading
import AreaMethod.Proofs.Recollection
import AreaMethod.Proofs.Regularity
import AreaMethod.Proofs.RoundTrip
import AreaMethod.Proofs.Separation
import AreaMethod.Proofs.Signs
import AreaMethod.Proofs.Simplification
import AreaMethod.Proofs.SimplifiedForm
import AreaMethod.Proofs.SimplifiedSums
import AreaMethod.Proofs.Soundness
import AreaMethod.Proofs.Steps
import AreaMethod.Proofs.Unfolding
import AreaMethod.Proofs.UnrelatedPoints
import AreaMethod.Proofs.Value
import AreaMethod.Proofs.Yields
import AreaMethod.Quantity
import AreaMethod.Sparse
import AreaMethod.Statement
import AreaMethod.Statement.Key
import AreaMethod.Text.Blank
import AreaMethod.Text.Numeral
import AreaMethod.Text.SExpr
import AreaMethod.Triples
