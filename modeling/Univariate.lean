import Univariate.Code.Listing
import Univariate.Derivative
import Univariate.Derive.Offence
import Univariate.Dual.Evaluate
import Univariate.Expr.Equality
import Univariate.Expr.Rename
import Univariate.FiniteDifference
import Univariate.Scalar.Binary32
import Univariate.Proofs.Derive.Derivation
import Univariate.Proofs.Expr.Variables
import Univariate.Proofs.Derive.Refusal
import Univariate.Code.Fault
import Univariate.Proofs.Code.Build
import Univariate.Proofs.Code.Faults
import Univariate.Proofs.Code.Run
import Univariate.Proofs.Dual.Values
import Univariate.Proofs.Dual.Polynomial
import Univariate.Proofs.Derive.Products
import Univariate.Proofs.Derive.Agreement
import Univariate.Proofs.Derive.Compiles
import Univariate.Proofs.Code.Session
import Univariate.Expr.Renesting
import Univariate.Proofs.Derive.Terms
import Univariate.Derive.SingleTerm
import Univariate.Proofs.Derive.Termwise
import Univariate.Proofs.Derive.Nesting
import Univariate.Derive.Repeated
import Univariate.Proofs.Derive.Repeated
import Univariate.Proofs.Expr.Renaming
import Univariate.Proofs.Code.Renaming
import Univariate.Proofs.Derive.Renaming
import Univariate.Proofs.Scalar.Comparison
import Univariate.Proofs.Expr.Equality
import Univariate.Proofs.Derive.Equality
import Univariate.Derive.Tour
import Univariate.Proofs.Derive.Tour
import Univariate.Derive.Brackets
import Univariate.Proofs.Derive.Events
import Univariate.Expr.Regrouping
import Univariate.Proofs.Decimal.Rounding
import Univariate.Proofs.Decimal.Shortest
import Univariate.Proofs.Expr.Reading
import Univariate.Proofs.Expr.Unambiguous
import Univariate.Proofs.Derive.Coefficients
import Univariate.Proofs.FiniteDifference
import Univariate.Proofs.Dual.Power
import Univariate.Proofs.Derive.SecondDerivative
import Univariate.Proofs.FiniteDifference.LargestGap
import Univariate.Proofs.Derive.Reordering
import Univariate.Proofs.Code.Layout
import Univariate.Proofs.Derive.Growth
import Univariate.Proofs.Code.Overflow
import Univariate.Proofs.Code.Reuse
import Univariate.Proofs.Code.Batch
import Univariate.Proofs.Strangers
