import FormulaDoc.Arguments
import FormulaDoc.Caret
import FormulaDoc.CommandLine
import FormulaDoc.Consolidate
import FormulaDoc.Data
import FormulaDoc.Editor
import FormulaDoc.Escape
import FormulaDoc.Files
import FormulaDoc.Formula
import FormulaDoc.Fresh
import FormulaDoc.Json
import FormulaDoc.Label
import FormulaDoc.Layout
import FormulaDoc.Lexeme
import FormulaDoc.Main
import FormulaDoc.Node
import FormulaDoc.Parse
import FormulaDoc.Piece
import FormulaDoc.Position
import FormulaDoc.Proofs.Bases
import FormulaDoc.Proofs.Blank
import FormulaDoc.Proofs.BottomUp
import FormulaDoc.Proofs.Braces
import FormulaDoc.Proofs.CaretRuns
import FormulaDoc.Proofs.CaretTracking
import FormulaDoc.Proofs.CarrierGaps
import FormulaDoc.Proofs.CarrierSpans
import FormulaDoc.Proofs.ChildSlots
import FormulaDoc.Proofs.Concatenation
import FormulaDoc.Proofs.Conservation
import FormulaDoc.Proofs.Consolidation
import FormulaDoc.Proofs.Consumption
import FormulaDoc.Proofs.DocumentOrder
import FormulaDoc.Proofs.Escaping
import FormulaDoc.Proofs.Excess
import FormulaDoc.Proofs.Fixed
import FormulaDoc.Proofs.FreshIds
import FormulaDoc.Proofs.HollowGroups
import FormulaDoc.Proofs.Image
import FormulaDoc.Proofs.Index
import FormulaDoc.Proofs.KeptIds
import FormulaDoc.Proofs.Labels
import FormulaDoc.Proofs.Lead
import FormulaDoc.Proofs.Leaves
import FormulaDoc.Proofs.LeftBehind
import FormulaDoc.Proofs.Legible
import FormulaDoc.Proofs.Listing
import FormulaDoc.Proofs.Lookups
import FormulaDoc.Proofs.Markup
import FormulaDoc.Proofs.Merging
import FormulaDoc.Proofs.Minting
import FormulaDoc.Proofs.Nesting
import FormulaDoc.Proofs.Occurrences
import FormulaDoc.Proofs.Outermost
import FormulaDoc.Proofs.Painting
import FormulaDoc.Proofs.PathIds
import FormulaDoc.Proofs.Places
import FormulaDoc.Proofs.Progress
import FormulaDoc.Proofs.RangeText
import FormulaDoc.Proofs.ReadBack
import FormulaDoc.Proofs.Reading
import FormulaDoc.Proofs.Recurrence
import FormulaDoc.Proofs.Regrouped
import FormulaDoc.Proofs.RenderTrip
import FormulaDoc.Proofs.Rendering
import FormulaDoc.Proofs.Reparsing
import FormulaDoc.Proofs.Repetition
import FormulaDoc.Proofs.Reproduction
import FormulaDoc.Proofs.Reread
import FormulaDoc.Proofs.Restyling
import FormulaDoc.Proofs.RoundTrip
import FormulaDoc.Proofs.Runs
import FormulaDoc.Proofs.Settled
import FormulaDoc.Proofs.Shedding
import FormulaDoc.Proofs.Siblings
import FormulaDoc.Proofs.Spans
import FormulaDoc.Proofs.Spelling
import FormulaDoc.Proofs.Splicing
import FormulaDoc.Proofs.Stability
import FormulaDoc.Proofs.Standings
import FormulaDoc.Proofs.Stripping
import FormulaDoc.Proofs.Styled
import FormulaDoc.Proofs.StyledMarkup
import FormulaDoc.Proofs.StyledRender
import FormulaDoc.Proofs.Styling
import FormulaDoc.Proofs.Supply
import FormulaDoc.Proofs.Surroundings
import FormulaDoc.Proofs.Swapping
import FormulaDoc.Proofs.Tagging
import FormulaDoc.Proofs.Tagless
import FormulaDoc.Proofs.Targets
import FormulaDoc.Proofs.TextBodies
import FormulaDoc.Proofs.TrailingGaps
import FormulaDoc.Proofs.Trimming
import FormulaDoc.Proofs.TryOrder
import FormulaDoc.Proofs.Unstyling
import FormulaDoc.Proofs.Unwrapping
import FormulaDoc.Proofs.VariableReads
import FormulaDoc.Proofs.Vocabulary
import FormulaDoc.Proofs.Wrapping
import FormulaDoc.Proofs.Writing
import FormulaDoc.Range
import FormulaDoc.Reader
import FormulaDoc.Rewrite
import FormulaDoc.Settings
import FormulaDoc.Shape
import FormulaDoc.Style
import FormulaDoc.Text.Blank
import FormulaDoc.Text.Decimal
import FormulaDoc.Text.Integer
import FormulaDoc.Text.Order
import FormulaDoc.Text.Pattern
import FormulaDoc.Text.Printable
import FormulaDoc.Text.Quoted
import FormulaDoc.Text.UpperCase
import FormulaDoc.Toml.Moment
import FormulaDoc.Toml.Reader
import FormulaDoc.Toml.Scalar
import FormulaDoc.Toml.Value
import FormulaDoc.Yaml
import FormulaDoc.Yaml.Scalar
