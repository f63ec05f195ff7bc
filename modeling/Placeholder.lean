import Placeholder.Main
import Placeholder.Proofs.Delimiters.LongestMatch
import Placeholder.Proofs.Reading.TextToCome
import Placeholder.Proofs.Text.Search
import Placeholder.Proofs.Reading.Window
import Placeholder.Proofs.Filter.Cutting
import Placeholder.Proofs.Filter.Body
import Placeholder.Proofs.Filter.Rendering
import Placeholder.Proofs.Filter.Sight
import Placeholder.Proofs.Filter.Streaming
import Placeholder.Proofs.Filter.Agreement
import Placeholder.Proofs.Expansion.DelimitedKeys
import Placeholder.Proofs.Expansion.Ending
import Placeholder.Proofs.Property.References
import Placeholder.Proofs.Table.Lookup
import Placeholder.Proofs.Property.Agreement
import Placeholder.Proofs.Text.Spelling
import Placeholder.Proofs.Reading.Cursor
import Placeholder.Proofs.Reading.PuttingBack
import Placeholder.Proofs.Expansion.Failing
import Placeholder.Proofs.Filter.Looking
import Placeholder.Proofs.Filter.Scanning
import Placeholder.Proofs.Filter.Accounting
import Placeholder.Proofs.Expansion.Silence
import Placeholder.Proofs.Filter.Lossless
import Placeholder.Proofs.Filter.Output
import Placeholder.Proofs.Filter.Outflow
import Placeholder.Proofs.Filter.Bytes
import Placeholder.Proofs.Expansion.Restoring
import Placeholder.Proofs.Session.Remembering
import Placeholder.Proofs.Session.TopLevel
import Placeholder.Proofs.Session.Clones
import Placeholder.Proofs.Reading.Ahead
import Placeholder.Proofs.Filter.Shown
import Placeholder.Proofs.Filter.EveryRead
import Placeholder.Proofs.Filter.Finding
import Placeholder.Proofs.Filter.WholeToken
import Placeholder.Proofs.Filter.Deciding
import Placeholder.Proofs.Filter.Pieces
import Placeholder.Proofs.Filter.Lines
import Placeholder.Proofs.Filter.Causality
import Placeholder.Proofs.Files.Writing
import Placeholder.Proofs.Filter.Copying
import Placeholder.Proofs.Sources.Order
import Placeholder.Proofs.Program.Groundwork
import Placeholder.Proofs.Program.Running
import Placeholder.Proofs.Program.Printing
import Placeholder.Proofs.Program.Saving
import Placeholder.Proofs.Program.Environment
import Placeholder.Proofs.Property.Expanding
import Placeholder.Proofs.Property.Overriding
import Placeholder.Proofs.Property.Escapes
import Placeholder.Proofs.Property.Names
import Placeholder.Proofs.Property.Writing
import Placeholder.Proofs.Property.Resolving
import Placeholder.Proofs.Program.Failing
import Placeholder.Proofs.Text.CodeUnits
import Placeholder.Proofs.Property.Storing
import Placeholder.Proofs.Property.Continuing
import Placeholder.Proofs.Expansion.Asking
import Placeholder.Proofs.Filter.SingleLine
import Placeholder.Proofs.Filter.LongExpressions
import Placeholder.Proofs.Markup.Plain
import Placeholder.Proofs.Expansion.Cases
import Placeholder.Proofs.Expansion.Rescanning
import Placeholder.Proofs.Filter.Untouched
import Placeholder.Proofs.Filter.Guarding
import Placeholder.Proofs.Session.Finishing
import Placeholder.Proofs.Expansion.Leading
import Placeholder.Proofs.Session.Frames
import Placeholder.Proofs.Results
import Placeholder.Proofs.Reading.Position
import Placeholder.Proofs.Property.Loading
import Placeholder.Proofs.Property.Repeating
import Placeholder.Proofs.Expansion.Circling
import Placeholder.Proofs.Session.Circles
import Placeholder.Proofs.Filter.Circles
import Placeholder.Proofs.Delimiters.WrittenForm
import Placeholder.Proofs.Expansion.Prefixes
import Placeholder.Proofs.Property.WindowsPaths
import Placeholder.Proofs.Toml.Conversion
import Placeholder.Proofs.Toml.Reading
import Placeholder.Proofs.Filter.Choosing
import Placeholder.Proofs.Reading.Promise
