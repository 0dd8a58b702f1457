import SymbolTable.Resolution
import SymbolTable.Loading
import SymbolTable.Settings.Document
import SymbolTable.Proofs.Resolution.Candidates
import SymbolTable.Proofs.Snapshot.Restoring
import SymbolTable.Proofs.Table.Runs
import SymbolTable.Proofs.Wire.Codes
import SymbolTable.Proofs.Wire.Values
import SymbolTable.Proofs.Snapshot.RoundTrip
import SymbolTable.Proofs.FileTree.Places
import SymbolTable.Proofs.FileTree.Writing
import SymbolTable.Proofs.Loading.Restoring
import SymbolTable.Proofs.Loading.Rebuilding
import SymbolTable.Proofs.Loading.Failing
import SymbolTable.Proofs.Loading.Loop
import SymbolTable.Proofs.Table.History
import SymbolTable.Proofs.Resolution.Lexical
import SymbolTable.Proofs.Snapshot.Canonical
import SymbolTable.Proofs.Loading.Cycles
import SymbolTable.Proofs.Loading.Repeating
import SymbolTable.Proofs.Resolution.Equality
import SymbolTable.Proofs.Resolution.Placeholders
import SymbolTable.Proofs.Resolution.Forms
import SymbolTable.Proofs.Text.Order
import SymbolTable.Proofs.Path.Cutting
import SymbolTable.Proofs.Path.Ancestors
import SymbolTable.Proofs.Json.Grammar
import SymbolTable.Proofs.Json.Reading
import SymbolTable.Proofs.Json.Numbers
import SymbolTable.Proofs.Json.Passing
import SymbolTable.Proofs.Settings.Documents
import SymbolTable.Proofs.Snapshot.Damage
import SymbolTable.Proofs.Snapshot.Truncation
import SymbolTable.Proofs.Resolution.Guard
import SymbolTable.Proofs.Resolution.Extension
import SymbolTable.Proofs.FileTree.Joining
import SymbolTable.Proofs.FileTree.Walking
import SymbolTable.Proofs.FileTree.Extensions
