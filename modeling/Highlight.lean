import Highlight.Grammar.Decoder
import Highlight.Proofs.Agreement
import Highlight.Proofs.Ancestors
import Highlight.Proofs.Anchoring
import Highlight.Proofs.Asking
import Highlight.Proofs.Bytes
import Highlight.Proofs.Capacity
import Highlight.Proofs.Choosing
import Highlight.Proofs.Closing
import Highlight.Proofs.ColorCalls
import Highlight.Proofs.Colors
import Highlight.Proofs.Compiling
import Highlight.Proofs.Completing
import Highlight.Proofs.Continuing
import Highlight.Proofs.Coverage
import Highlight.Proofs.Cutting
import Highlight.Proofs.Dropping
import Highlight.Proofs.Enclosing
import Highlight.Proofs.Faithful
import Highlight.Proofs.Fetching
import Highlight.Proofs.Fields
import Highlight.Proofs.Forgetting
import Highlight.Proofs.Frames
import Highlight.Proofs.Frozen
import Highlight.Proofs.Gaps
import Highlight.Proofs.GroupReferences
import Highlight.Proofs.Groups
import Highlight.Proofs.History
import Highlight.Proofs.Holding
import Highlight.Proofs.Innermost
import Highlight.Proofs.Inventory
import Highlight.Proofs.Keeping
import Highlight.Proofs.Languages
import Highlight.Proofs.Levels
import Highlight.Proofs.Lexical
import Highlight.Proofs.Limits
import Highlight.Proofs.Loading
import Highlight.Proofs.Lookups
import Highlight.Proofs.Matching
import Highlight.Proofs.Missing
import Highlight.Proofs.Names
import Highlight.Proofs.Nesting
import Highlight.Proofs.Numbers
import Highlight.Proofs.OpenRegions
import Highlight.Proofs.Overriding
import Highlight.Proofs.Packing
import Highlight.Proofs.Places
import Highlight.Proofs.Positions
import Highlight.Proofs.Progress
import Highlight.Proofs.Reaching
import Highlight.Proofs.Reading
import Highlight.Proofs.Readings
import Highlight.Proofs.Reloading
import Highlight.Proofs.Reordering
import Highlight.Proofs.Repeatable
import Highlight.Proofs.Replacing
import Highlight.Proofs.Requests
import Highlight.Proofs.Rounds
import Highlight.Proofs.RunLengths
import Highlight.Proofs.Scanning
import Highlight.Proofs.Selectors
import Highlight.Proofs.Settled
import Highlight.Proofs.Sites
import Highlight.Proofs.Sorting
import Highlight.Proofs.Specificity
import Highlight.Proofs.Spending
import Highlight.Proofs.Steps
import Highlight.Proofs.Styles
import Highlight.Proofs.Sufficing
import Highlight.Proofs.Taking
import Highlight.Proofs.Templates
import Highlight.Proofs.Tiling
import Highlight.Proofs.Transparency
import Highlight.Proofs.Tries
import Highlight.Proofs.Turns
import Highlight.Proofs.Unbounded
import Highlight.Proofs.Unfitting
import Highlight.Proofs.Unnoticed
import Highlight.Proofs.Unscoped
import Highlight.Proofs.Voids
import Highlight.Proofs.Walks
import Highlight.Proofs.Ways
import Highlight.Registry
import Highlight.Scanner.Journal
import Highlight.Scanner.Literal
import Highlight.Scanner.Regex
import Highlight.Scope.Forest
