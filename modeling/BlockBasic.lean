import BlockBasic.Console
import BlockBasic.Main
import BlockBasic.Reference.Register
import BlockBasic.Proofs.Lexeme
import BlockBasic.Proofs.Tokenization
import BlockBasic.Proofs.SourceOrder
import BlockBasic.Proofs.Phrases
import BlockBasic.Proofs.Brackets
import BlockBasic.Proofs.Kinds
import BlockBasic.Proofs.UpperCase
import BlockBasic.Proofs.Recast
import BlockBasic.Proofs.Unplaced
import BlockBasic.Proofs.Reading
import BlockBasic.Proofs.Written
import BlockBasic.Proofs.ListedText
import BlockBasic.Proofs.Faultless
import BlockBasic.Proofs.Signs
import BlockBasic.Proofs.Dividers
import BlockBasic.Proofs.Relisting
import BlockBasic.Proofs.Effects
import BlockBasic.Proofs.SameBlocks
import BlockBasic.Proofs.ListedLines
import BlockBasic.Proofs.RoundTrip
import BlockBasic.Proofs.Pieces
import BlockBasic.Proofs.Weights
import BlockBasic.Proofs.Listable
import BlockBasic.Proofs.Outline
import BlockBasic.Proofs.OpenBlocks
import BlockBasic.Proofs.BlockGrammar
import BlockBasic.Proofs.Levels
import BlockBasic.Proofs.Defects
import BlockBasic.Proofs.Recovery
import BlockBasic.Proofs.Keys
import BlockBasic.Proofs.RoutineEnds
import BlockBasic.Proofs.UpperSource
import BlockBasic.Proofs.UpperTokens
import BlockBasic.Proofs.UpperDeclarations
import BlockBasic.Proofs.CaseInsensitive
import BlockBasic.Proofs.Sites
import BlockBasic.Proofs.Offences
import BlockBasic.Proofs.Places
import BlockBasic.Proofs.Quotes
import BlockBasic.Proofs.Comments
import BlockBasic.Proofs.Balanced
import BlockBasic.Proofs.SeenNames
import BlockBasic.Proofs.SharedNames
import BlockBasic.Proofs.Atoms
import BlockBasic.Proofs.Malformed
import BlockBasic.Proofs.References
import BlockBasic.Proofs.Declared
import BlockBasic.Proofs.Unresolved
import BlockBasic.Proofs.Indexed
import BlockBasic.Proofs.Cleaning
import BlockBasic.Proofs.Tiling
import BlockBasic.Proofs.Groups
import BlockBasic.Proofs.StatementColumns
import BlockBasic.Proofs.OpenClauses
import BlockBasic.Proofs.BracketWords
import BlockBasic.Expression.Descent
import BlockBasic.Proofs.Descending
import BlockBasic.Proofs.Nesting
import BlockBasic.Proofs.Colons
import BlockBasic.Proofs.Reported
import BlockBasic.Proofs.Continued
import BlockBasic.Proofs.Patterns
import BlockBasic.Proofs.Munch
import BlockBasic.Proofs.Respaced
import BlockBasic.Proofs.Variables
import BlockBasic.Proofs.Routines
import BlockBasic.Proofs.Duplicates
import BlockBasic.Construction
import BlockBasic.Proofs.Composition
import BlockBasic.Proofs.Postorder
import BlockBasic.Proofs.Traversal
import BlockBasic.Proofs.Underlined
import BlockBasic.Proofs.Shifted
import BlockBasic.Proofs.Joined
import BlockBasic.Proofs.Standing
import BlockBasic.Proofs.Numbers
