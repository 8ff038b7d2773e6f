import Transclude.Text.Basic
import Transclude.Text.Blank
import Transclude.Text.Decimal
import Transclude.Text.Bytes
import Transclude.Markup.Value
import Transclude.Markup.Declaration
import Transclude.Markup.Lexeme
import Transclude.Markup.Directive
import Transclude.Markup.Piece
import Transclude.Markup.Token
import Transclude.Markup.Block
import Transclude.Bindings
import Transclude.Error
import Transclude.Variables
import Transclude.Content
import Transclude.Path
import Transclude.Scope
import Transclude.Tree.Basic
import Transclude.Tree.Resolve
import Transclude.Tree.Storage
import Transclude.Tree.Backup
import Transclude.Lookup
import Transclude.Exclude
import Transclude.Scan
import Transclude.Toml
import Transclude.Settings
import Transclude.Update
import Transclude.Command.Arguments
import Transclude.Command.Message
import Transclude.Command.Run
import Transclude.Main
import Transclude.Proofs.Additions
import Transclude.Proofs.Bodies
import Transclude.Proofs.Branches
import Transclude.Proofs.ByteReader
import Transclude.Proofs.Capture
import Transclude.Proofs.Climbs
import Transclude.Proofs.Collections
import Transclude.Proofs.Comments
import Transclude.Proofs.Confinement
import Transclude.Proofs.Contributions
import Transclude.Proofs.Cycles
import Transclude.Proofs.Dangling
import Transclude.Proofs.Depths
import Transclude.Proofs.DryRuns
import Transclude.Proofs.Edits
import Transclude.Proofs.Excerpts
import Transclude.Proofs.Expansions
import Transclude.Proofs.Extensions
import Transclude.Proofs.FillTwice
import Transclude.Proofs.Fills
import Transclude.Proofs.Findings
import Transclude.Proofs.Forward
import Transclude.Proofs.Frames
import Transclude.Proofs.Grammar
import Transclude.Proofs.Leftovers
import Transclude.Proofs.LineEnds
import Transclude.Proofs.LineStyles
import Transclude.Proofs.Nestings
import Transclude.Proofs.NewDeclarations
import Transclude.Proofs.ProcessRuns
import Transclude.Proofs.Removals
import Transclude.Proofs.Reruns
import Transclude.Proofs.ScanWays
import Transclude.Proofs.Scopes
import Transclude.Proofs.Searches
import Transclude.Proofs.Separate
import Transclude.Proofs.Settles
import Transclude.Proofs.Spellings
import Transclude.Proofs.Store
import Transclude.Proofs.Tokens
import Transclude.Proofs.Unions
import Transclude.Proofs.Unseen
import Transclude.Proofs.Updates
