import Abacus.CommandLine.FileTree
import Abacus.Session
import Abacus.Main
import Abacus.Proofs.Tokens
import Abacus.Proofs.CursorTokens
import Abacus.Proofs.SpacedTokens
import Abacus.Proofs.Automaton
import Abacus.Proofs.Simulation
import Abacus.Proofs.Grammar
import Abacus.Proofs.Derivation
import Abacus.Proofs.Spacing
import Abacus.Proofs.FirstViolation
import Abacus.Proofs.Unlimited
import Abacus.Proofs.Shape
import Abacus.Proofs.DepthLimit
import Abacus.Proofs.Double.Encoding
import Abacus.Proofs.Double.Rounding
import Abacus.Proofs.Double.ShortestInCell
import Abacus.Proofs.Double.Positional
import Abacus.Proofs.Calculation
import Abacus.Proofs.ReadBack
import Abacus.Proofs.Pipeline
import Abacus.Proofs.Double.Exact
import Abacus.Proofs.IntegerExpressions
import Abacus.Proofs.NamedConstants
import Abacus.Proofs.Substitution
import Abacus.Proofs.NamedDerivation
import Abacus.Proofs.GroupReplacement
import Abacus.Proofs.DepthCounter
import Abacus.Proofs.Utf8
import Abacus.Proofs.InputLines
import Abacus.Proofs.SharedRegistries
import Abacus.Proofs.Calls
import Abacus.Proofs.Double.NearestDouble
import Abacus.Proofs.ErrorPlaces
import Abacus.Proofs.NumberRuns
import Abacus.Proofs.Json.Grammar
import Abacus.Proofs.Json.Reading
import Abacus.Proofs.Json.Skipping
import Abacus.Proofs.OptionValues
import Abacus.Proofs.Json.Writing
import Abacus.Proofs.OptionsText
import Abacus.Proofs.Json.WrittenNumbers
import Abacus.Proofs.JsonReport
import Abacus.Proofs.Double.FewestDigits
import Abacus.Proofs.ResolvedErrors
import Abacus.Proofs.Arguments
import Abacus.Proofs.Double.ShortestText
import Abacus.Proofs.WordsAndLines
import Abacus.Proofs.FileTrees
import Abacus.Proofs.SetUp
import Abacus.Proofs.Sessions
import Abacus.Proofs.Double.Comparison
import Abacus.Proofs.Factorial
import Abacus.Proofs.TextMarkers
import Abacus.Proofs.CursorMoves
