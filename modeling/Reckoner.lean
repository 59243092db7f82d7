import Reckoner.Agreement
import Reckoner.Equation.Exact
import Reckoner.Equation.Fragment
import Reckoner.Equation.Lemmas
import Reckoner.Equation.Outcome
import Reckoner.Json.Document
import Reckoner.Number.Grid.Bits
import Reckoner.Number.Grid.Neutral
import Reckoner.Number.Grid.Operations
import Reckoner.Number.Grid.Order
import Reckoner.Number.Grid.SignedZero
import Reckoner.Number.Nearest
import Reckoner.Number.NotANumber
import Reckoner.Number.Rational
import Reckoner.Number.Shortest.Lemmas
import Reckoner.Number.Whole
import Reckoner.Proofs.Acceptance
import Reckoner.Proofs.Accumulation
import Reckoner.Proofs.Coefficients
import Reckoner.Proofs.Compilation
import Reckoner.Proofs.Conservation
import Reckoner.Proofs.Diagnosis
import Reckoner.Proofs.Editing
import Reckoner.Proofs.Exponents
import Reckoner.Proofs.Faults
import Reckoner.Proofs.LetterCase
import Reckoner.Proofs.Listings
import Reckoner.Proofs.Literals
import Reckoner.Proofs.NumberText
import Reckoner.Proofs.Placement
import Reckoner.Proofs.Provenance
import Reckoner.Proofs.Readback
import Reckoner.Proofs.Readers
import Reckoner.Proofs.Reading
import Reckoner.Proofs.Replays
import Reckoner.Proofs.Residual
import Reckoner.Proofs.RoundTrip
import Reckoner.Proofs.Runs
import Reckoner.Proofs.Scanning
import Reckoner.Proofs.Segments
import Reckoner.Proofs.Shapes
import Reckoner.Proofs.Shortage
import Reckoner.Proofs.Shortcuts
import Reckoner.Proofs.Solution
import Reckoner.Proofs.StepTexts
import Reckoner.Proofs.Submission
import Reckoner.Proofs.Substitution
import Reckoner.Proofs.ZeroTest
import Reckoner.Rpn.Replay
import Reckoner.Rpn.Working
import Reckoner.Session.Lemmas
import Reckoner.Session.Screen
import Reckoner.Text.Literal.Grammar
import Reckoner.Text.Literal.Lemmas
import Reckoner.Text.Literal.Value
