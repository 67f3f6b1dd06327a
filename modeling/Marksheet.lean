import Marksheet.Main
import Marksheet.Proofs.CommandLine.Restoring
import Marksheet.Proofs.Fraction.Addition
import Marksheet.Proofs.Fraction.Limits
import Marksheet.Proofs.Scheme.Normalizations
import Marksheet.Proofs.Scheme.Totals
import Marksheet.Proofs.Sheet.History
import Marksheet.Proofs.Sheet.Averages
import Marksheet.Proofs.Sheet.Lines
import Marksheet.Proofs.Reading.Depth
import Marksheet.Proofs.Reading.Simulation
import Marksheet.Proofs.Reading.Literals
import Marksheet.Proofs.Reading.Assignments
import Marksheet.Proofs.Scheme.Signs
import Marksheet.Proofs.Scheme.Printing
import Marksheet.Proofs.CommandLine.Marking
import Marksheet.Proofs.Decimal.Shown
import Marksheet.Proofs.Table.Layout
import Marksheet.Proofs.Reading.Progress
