import FrontEnd.Main
import FrontEnd.Syntax.Edit
import FrontEnd.Token.Lookahead
import FrontEnd.Proofs.Grammar.Continuation
import FrontEnd.Proofs.Grammar.Language
import FrontEnd.Proofs.Grammar.Reading
import FrontEnd.Proofs.Grammar.Soundness
import FrontEnd.Proofs.Grammar.Completeness
import FrontEnd.Proofs.Grammar.Derivation
import FrontEnd.Proofs.Grammar.Acceptance
import FrontEnd.Proofs.Grammar.Termination
import FrontEnd.Proofs.Grammar.Reporting
import FrontEnd.Proofs.Types.Sameness
import FrontEnd.Proofs.Typing.Rules
import FrontEnd.Proofs.Typing.Steps
import FrontEnd.Proofs.Typing.Soundness
import FrontEnd.Proofs.Typing.Completeness
import FrontEnd.Proofs.Scope.Growth
import FrontEnd.Proofs.Scope.Placement
import FrontEnd.Proofs.Scope.Stamped
import FrontEnd.Proofs.Scope.Checking
import FrontEnd.Proofs.Scope.Resolution
import FrontEnd.Proofs.Compilation.Preconditions
import FrontEnd.Proofs.Token.Layout
import FrontEnd.Proofs.Grammar.Locality
import FrontEnd.Proofs.Compilation.Relayout
import FrontEnd.Proofs.Grammar.Writable
import FrontEnd.Proofs.Grammar.Rereading
import FrontEnd.Proofs.Grammar.Failure
import FrontEnd.Proofs.Syntax.Visits
import FrontEnd.Proofs.Typing.Results
import FrontEnd.Proofs.Scope.Mirroring
import FrontEnd.Proofs.Grammar.Contract
import FrontEnd.Proofs.Grammar.WellFormed
import FrontEnd.Proofs.Grammar.Entering
import FrontEnd.Proofs.Scope.Held
import FrontEnd.Proofs.Scope.InRange
import FrontEnd.Proofs.Typing.InRange
import FrontEnd.Proofs.Compilation.Consistent
import FrontEnd.Proofs.Scope.Correspondence
import FrontEnd.Proofs.Typing.Correspondence
import FrontEnd.Proofs.Grammar.Enclosure
import FrontEnd.Proofs.Compilation.Joined
import FrontEnd.Proofs.Scope.Parallel
import FrontEnd.Proofs.Scope.Stretches
import FrontEnd.Proofs.Scope.Twins
import FrontEnd.Proofs.Compilation.Rearranged
import FrontEnd.Proofs.Syntax.Marks
import FrontEnd.Proofs.Scope.Openers
import FrontEnd.Proofs.Scope.Behind
import FrontEnd.Proofs.Syntax.OperatorTree
import FrontEnd.Proofs.Grammar.Chains
import FrontEnd.Proofs.Grammar.Sentences
import FrontEnd.Proofs.Grammar.Tracking
import FrontEnd.Proofs.Grammar.FirstFault
import FrontEnd.Proofs.Token.Inserting
import FrontEnd.Proofs.Grammar.Inserted
import FrontEnd.Proofs.Grammar.Signed
import FrontEnd.Proofs.Scope.Signing
import FrontEnd.Proofs.Typing.Unsigned
import FrontEnd.Proofs.Token.Showing
import FrontEnd.Proofs.Grammar.ShownTypes
import FrontEnd.Proofs.Types.Unfolding
import FrontEnd.Proofs.Typing.Differences
import FrontEnd.Proofs.Compilation.Apart
import FrontEnd.Proofs.Grammar.Signable
import FrontEnd.Proofs.Typing.Signing
import FrontEnd.Proofs.Compilation.Signed
import FrontEnd.Proofs.Token.LongestMatch
import FrontEnd.Proofs.Token.Cursor
import FrontEnd.Proofs.Scope.Clashes
import FrontEnd.Proofs.Grammar.Climbing
import FrontEnd.Proofs.Scope.Appending
import FrontEnd.Proofs.Typing.Overwriting
import FrontEnd.Proofs.Compilation.Located
import FrontEnd.Proofs.Grammar.Carrying
import FrontEnd.Proofs.Scope.Mentions
import FrontEnd.Proofs.Typing.Respelling
import FrontEnd.Proofs.Compilation.Renamed
import FrontEnd.Proofs.Scope.Effects
import FrontEnd.Proofs.Types.History
import FrontEnd.Proofs.Compilation.Dumped
import FrontEnd.Proofs.Grammar.Recovery
