import CelEdit.Edit.Bind
import CelEdit.Edit.Call
import CelEdit.Expr.Cached
import CelEdit.Expr.Navigation
import CelEdit.Main
import CelEdit.Proofs.Layers
import CelEdit.Proofs.Trees
import CelEdit.Proofs.Positions
import CelEdit.Proofs.Digests
import CelEdit.Proofs.Tables
import CelEdit.Proofs.Supplies
import CelEdit.Proofs.Renumbering
import CelEdit.Proofs.Shadows
import CelEdit.Proofs.Grafts
import CelEdit.Proofs.Replacements
import CelEdit.Proofs.Binding
import CelEdit.Proofs.Assembly
import CelEdit.Proofs.Mangling
import CelEdit.Proofs.Scoping
import CelEdit.Proofs.Extensions
import CelEdit.Proofs.Sessions
import CelEdit.Proofs.MacroTransfer
import CelEdit.Proofs.Mirrors
import CelEdit.Proofs.Likeness
import CelEdit.Proofs.Renderings
import CelEdit.Proofs.Correspondence
import CelEdit.Proofs.Redrawing
import CelEdit.Proofs.GraftedCalls
import CelEdit.Proofs.Remainders
import CelEdit.Proofs.Tracking
import CelEdit.Proofs.Commutation
import CelEdit.Proofs.Budgets
import CelEdit.Proofs.ShadowPlaces
import CelEdit.Proofs.MangledShadows
import CelEdit.Proofs.Remangling
import CelEdit.Proofs.BindTexts
import CelEdit.Proofs.BindStructure
import CelEdit.Proofs.Numerals
import CelEdit.Proofs.JsonTexts
import CelEdit.Proofs.Documents
import CelEdit.Proofs.Lexemes
import CelEdit.Proofs.PlainTexts
import CelEdit.Proofs.PhraseReader
import CelEdit.Proofs.ReadingBack
import CelEdit.Proofs.Reserves
import CelEdit.Proofs.FreshIds
import CelEdit.Proofs.Refusals
import CelEdit.Proofs.Numbering
import CelEdit.Proofs.CallTexts
import CelEdit.Proofs.Walks
import CelEdit.Proofs.Ancestry
import CelEdit.Proofs.Layouts
import CelEdit.Proofs.Offences
import CelEdit.Proofs.Expansions
import CelEdit.Proofs.Ordinals
import CelEdit.Proofs.Literals
import CelEdit.Proofs.DumpLines
import CelEdit.Proofs.DumpedNodes
import CelEdit.Proofs.Dumps
import CelEdit.Proofs.Histories
import CelEdit.Proofs.PlaceEdits
