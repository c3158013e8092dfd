import FieldRules.Main
import FieldRules.Text.Name
import FieldRules.Proofs.Number.Interval
import FieldRules.Proofs.Number.ReadBack
import FieldRules.Proofs.Code.Checks
import FieldRules.Proofs.Rule.Parameters
import FieldRules.Proofs.Rule.RoundTrip
import FieldRules.Proofs.Source.Grammar
import FieldRules.Proofs.Source.RoundTrip
import FieldRules.Proofs.Code.Records
import FieldRules.Proofs.Analysis.Constants
import FieldRules.Proofs.Tree.Entries
import FieldRules.Proofs.Tree.Texts
import FieldRules.Proofs.Tree.Routes
import FieldRules.Proofs.Tree.Changes
import FieldRules.Proofs.Workspace.Discovery
import FieldRules.Proofs.Analysis.Phases
import FieldRules.Proofs.Workspace.Batch
import FieldRules.Proofs.Workspace.Order
import FieldRules.Proofs.Workspace.Sources
import FieldRules.Proofs.Tree.WellFormed
import FieldRules.Proofs.Tree.Removal
import FieldRules.Proofs.Tree.Siblings
import FieldRules.Proofs.Workspace.Walk
import FieldRules.Proofs.Workspace.Header
import FieldRules.Proofs.Workspace.Marking
import FieldRules.Proofs.Workspace.Repetition
import FieldRules.Proofs.Workspace.Orphans
import FieldRules.Proofs.Workspace.Preview
import FieldRules.Proofs.Source.Safety
import FieldRules.Proofs.Analysis.FrontEnd
import FieldRules.Proofs.Analysis.Moves
import FieldRules.Proofs.Analysis.Reordering
import FieldRules.Proofs.Code.Interpreted
import FieldRules.Proofs.Code.Imports
import FieldRules.Proofs.Code.Scoping
import FieldRules.Proofs.Code.Formats
import FieldRules.Proofs.Code.BasicLiterals
import FieldRules.Proofs.Code.Membership
import FieldRules.Proofs.Analysis.Groups
import FieldRules.Proofs.Source.LineEnds
import FieldRules.Proofs.Source.Attachment
import FieldRules.Proofs.Source.Respelling
import FieldRules.Proofs.Source.Insertion
import FieldRules.Proofs.Source.Embedding
import FieldRules.Proofs.Analysis.Lengths
import FieldRules.Proofs.Analysis.Targets
import FieldRules.Proofs.Rule.Quoting
import FieldRules.Proofs.Rule.Decoding
import FieldRules.Proofs.Analysis.Directives
import FieldRules.Proofs.Rule.Registering
import FieldRules.Proofs.Analysis.Protocol
import FieldRules.Proofs.Code.Grouping
import FieldRules.Proofs.Workspace.Listing
import FieldRules.Proofs.Workspace.Warnings
