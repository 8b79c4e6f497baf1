import TwoPass.Main
import TwoPass.Proofs.Growth
import TwoPass.Proofs.Layout
import TwoPass.Proofs.Merging
import TwoPass.Proofs.Reread
import TwoPass.Proofs.StrictLabels
import TwoPass.Proofs.NumeralForms
import TwoPass.Proofs.RecordLayout
import TwoPass.Proofs.StreamText
import TwoPass.Proofs.Parentheses
import TwoPass.Proofs.Pointers
import TwoPass.Proofs.SymbolCalls
import TwoPass.Proofs.LiteralCalls
import TwoPass.Proofs.FirstDefinition
import TwoPass.Proofs.LabelWarnings
import TwoPass.Proofs.Blame
import TwoPass.Proofs.SourceLayout
import TwoPass.Proofs.SymbolNames
import TwoPass.Proofs.AfterEnd
import TwoPass.Proofs.NameSpaces
import TwoPass.Proofs.DumpRows
import TwoPass.Proofs.SourceNumbers
import TwoPass.Proofs.WrittenConstants
import TwoPass.Proofs.MnemonicDefinitions
import TwoPass.Proofs.RegisterTables
import TwoPass.Proofs.Outputs
import TwoPass.Proofs.WordTurns
import TwoPass.Proofs.Listings
import TwoPass.Proofs.TokenLayout
