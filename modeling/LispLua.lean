import LispLua.Generate.Equation
import LispLua.Main
import LispLua.Proofs.Generation.Purity
import LispLua.Proofs.Operators.Meaning
import LispLua.Proofs.Reading.RoundTrip
import LispLua.Proofs.Reading.Point
import LispLua.Proofs.Reading.Taking
import LispLua.Proofs.Reading.Weave
import LispLua.Proofs.Reading.Location
import LispLua.Proofs.Lowering.Rules
import LispLua.Proofs.Lowering.Sound
import LispLua.Proofs.Lowering.Package
import LispLua.Proofs.Lowering.Literal
import LispLua.Proofs.Lowering.Variadic
import LispLua.Proofs.Lowering.Locals
import LispLua.Proofs.Lowering.Scopes
import LispLua.Proofs.Lowering.Shelter
import LispLua.Proofs.Pairing.Forms
import LispLua.Proofs.Pairing.Term
import LispLua.Proofs.Pairing.Layout
import LispLua.Proofs.Pairing.Weakening
import LispLua.Proofs.Pairing.Blame
import LispLua.Proofs.Pairing.Explicit
import LispLua.Proofs.Pairing.Unreachable
import LispLua.Proofs.Accord.Basic
import LispLua.Proofs.Accord.Forms
import LispLua.Proofs.Accord.Options
import LispLua.Proofs.Names.Free
import LispLua.Proofs.Names.Unbound
import LispLua.Proofs.Lowering.Definition
import LispLua.Proofs.Lexical.Scanner
import LispLua.Proofs.Lexical.Gaps
import LispLua.Proofs.Lexical.Words
import LispLua.Proofs.Lexical.Grammar
import LispLua.Proofs.Lexical.Source
import LispLua.Proofs.Lexical.Emission
import LispLua.Proofs.Scope.Maps
import LispLua.Proofs.Scope.Arena
import LispLua.Proofs.Scope.Moves
import LispLua.Proofs.Scope.Redeclaration
import LispLua.Proofs.Scope.Ledger
import LispLua.Proofs.Accord.Relaxed
import LispLua.Proofs.Reading.Locality
import LispLua.Proofs.Reading.Stop
import LispLua.Proofs.Reading.Underline
import LispLua.Proofs.Command.Outcome
import LispLua.Proofs.Lowering.Initialisers
import LispLua.Proofs.Sugar.Hygiene
import LispLua.Proofs.Lexical.Strings
import LispLua.Proofs.Lowering.Matching
import LispLua.Proofs.Sugar.Parity
import LispLua.Proofs.Report.Link
import LispLua.Proofs.Names.Patterns
import LispLua.Proofs.Names.Parameters
import LispLua.Proofs.Sugar.Indexing
import LispLua.Proofs.Sugar.Pairs
import LispLua.Proofs.Reading.Progress
import LispLua.Proofs.Reading.Guarded
