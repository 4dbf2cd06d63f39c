import CellFormula.Main
import CellFormula.Session
import CellFormula.Proofs.Bindings
import CellFormula.Proofs.Text.Bytes
import CellFormula.Proofs.Bindings.History
import CellFormula.Proofs.Formula.Coherence
import CellFormula.Proofs.Formula.Declaration
import CellFormula.Proofs.Formula.Footprint
import CellFormula.Proofs.Formula.Nodes
import CellFormula.Proofs.Formula.Planning
import CellFormula.Proofs.Formula.Compilability
import CellFormula.Proofs.Formula.Renaming
import CellFormula.Proofs.Native.Linkage
import CellFormula.Proofs.Native.Simulation
import CellFormula.Proofs.Native.Refinement
import CellFormula.Proofs.Native.Emission
import CellFormula.Proofs.Native.Verification
import CellFormula.Proofs.Number.Bits
import CellFormula.Proofs.Number.Shortest
import CellFormula.Proofs.Parsing.Scan
import CellFormula.Proofs.Parsing.Tokens
import CellFormula.Proofs.Parsing.Accepted
import CellFormula.Proofs.Parsing.Chain
import CellFormula.Proofs.Parsing.Edge
import CellFormula.Proofs.Parsing.Writing
import CellFormula.Proofs.Parsing.Grammar
import CellFormula.Proofs.Parsing.Numeral
import CellFormula.Proofs.Parsing.Operators
import CellFormula.Proofs.Parsing.Spelled
import CellFormula.Proofs.Parsing.Printing
import CellFormula.Proofs.Session.Reference
import CellFormula.Proofs.Session.Reporting
import CellFormula.Proofs.Session.Addresses
import CellFormula.Proofs.Session.Independence
import CellFormula.Proofs.Session.Abridgement
import CellFormula.Proofs.Formula.Noninterference
import CellFormula.Proofs.Formula.Assignments
import CellFormula.Proofs.Session.Currency
import CellFormula.Proofs.Parsing.Readings
import CellFormula.Proofs.Parsing.Insertion
import CellFormula.Proofs.Parsing.Levels
import CellFormula.Proofs.Parsing.Lexemes
import CellFormula.Proofs.Parsing.Sealing
import CellFormula.Proofs.Parsing.Occurrence
import CellFormula.Proofs.Parsing.Positions
import CellFormula.Proofs.Parsing.Words
import CellFormula.Proofs.Formula.BoundNames
import CellFormula.Proofs.Formula.Demands
import CellFormula.Proofs.Native.Composition
import CellFormula.Proofs.Native.Slots
import CellFormula.Proofs.Native.SingleAssignment
import CellFormula.Proofs.CommandLine.Options
import CellFormula.Proofs.CommandLine.Run
import CellFormula.Proofs.Number.DecimalReader
import CellFormula.Proofs.Number.IntegerConversion
import CellFormula.Proofs.Parsing.DigitStrings
