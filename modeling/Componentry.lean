import Componentry.Editor.Completion
import Componentry.Editor.Hover
import Componentry.Main
import Componentry.Proofs.Build.Entries
import Componentry.Proofs.Build.Inputs
import Componentry.Proofs.Build.Keys
import Componentry.Proofs.Build.Overlay
import Componentry.Proofs.Build.Repetition
import Componentry.Proofs.Build.Transparency
import Componentry.Proofs.Component.CodePlaces
import Componentry.Proofs.Component.Declaration
import Componentry.Proofs.Component.Opening
import Componentry.Proofs.Component.Parameters
import Componentry.Proofs.Component.Splitting
import Componentry.Proofs.Component.StrayBraces
import Componentry.Proofs.Component.Verdict
import Componentry.Proofs.Cursor.Blocks
import Componentry.Proofs.Cursor.Component
import Componentry.Proofs.Cursor.Evaluation
import Componentry.Proofs.Editor.Constants
import Componentry.Proofs.Editor.Hover
import Componentry.Proofs.Editor.Signature
import Componentry.Proofs.Files.Listing
import Componentry.Proofs.Markup.Agreement
import Componentry.Proofs.Markup.Closed
import Componentry.Proofs.Markup.Failures
import Componentry.Proofs.Markup.Grammar
import Componentry.Proofs.Markup.Literals
import Componentry.Proofs.Markup.NormalForm
import Componentry.Proofs.Markup.Printing
import Componentry.Proofs.Static.Firmness
import Componentry.Proofs.Static.Inserted
import Componentry.Proofs.Static.Parentheses
import Componentry.Proofs.Static.Precedence
import Componentry.Proofs.Static.Quotations
import Componentry.Proofs.Text.Order
import Componentry.Proofs.Text.Locations
import Componentry.Proofs.Editor.FileNames
import Componentry.Proofs.Code.Bytes
