import ColorChain.Chain.Edit
import ColorChain.Program.Journal
import ColorChain.Program.Pipeline
import ColorChain.Program.Shading
import ColorChain.Proofs.Chain.Sound
import ColorChain.Session
import ColorChain.Proofs.Program.Shading
import ColorChain.Proofs.Chain.Loading
import ColorChain.Proofs.Text
import ColorChain.Proofs.Compact.Clause
import ColorChain.Proofs.Compact.Document
import ColorChain.Proofs.Binary.Rounding
import ColorChain.Proofs.Binary.Nearest
import ColorChain.Proofs.Decimal.Numeral
import ColorChain.Proofs.Decimal.Display
import ColorChain.Proofs.Color.Channel
import ColorChain.Proofs.Color.Hex
import ColorChain.Proofs.Control.Equal
import ColorChain.Proofs.Chain.Copy
import ColorChain.Proofs.Compact.Field
import ColorChain.Proofs.Control.Exact
import ColorChain.Proofs.Compact.RoundTrip
import ColorChain.Proofs.Json.Fields
import ColorChain.Proofs.Saved.Argument
import ColorChain.Proofs.Saved.RoundTrip
import ColorChain.Proofs.Json.Numeral
import ColorChain.Proofs.Json.Text
import ColorChain.Proofs.Saved.Record
import ColorChain.Chain.InPlace
import ColorChain.Proofs.Chain.InPlace
import ColorChain.Proofs.Control.Stored
import ColorChain.Proofs.Chain.Whole
import ColorChain.Proofs.Chain.Keys
import ColorChain.Program.InPlace
import ColorChain.Proofs.Program.InPlace
import ColorChain.Proofs.Program.Release
import ColorChain.Proofs.Program.Rebuild
import ColorChain.Proofs.Program.Measure
import ColorChain.Proofs.Program.Addresses
import ColorChain.Proofs.Program.LastProgram
import ColorChain.Proofs.Binary.Blur
import ColorChain.Proofs.Binary.Gap
import ColorChain.Proofs.Decimal.Midpoint
import ColorChain.Proofs.Decimal.Places
import ColorChain.Proofs.Decimal.Shortest
import ColorChain.Proofs.Json.Real
import ColorChain.Proofs.Json.Displayed
import ColorChain.Proofs.Saved.Agreement
import ColorChain.Registry.InPlace
import ColorChain.Proofs.Registry.InPlace
import ColorChain.Proofs.Registry.History
import ColorChain.Proofs.Session
import ColorChain.Proofs.Control.Admits
import ColorChain.Proofs.Control.Domain
import ColorChain.Proofs.Chain.Origin
import ColorChain.Proofs.Chain.Admitted
import ColorChain.Proofs.Decimal.Order
import ColorChain.Proofs.Control.Settled
import ColorChain.Proofs.Saved.Stable
import ColorChain.Proofs.Saved.Shape
import ColorChain.Proofs.Program.Size
import ColorChain.Proofs.Template.Run
import ColorChain.Proofs.Program.Placeholders
import ColorChain.Trace
import ColorChain.Stepwise
import ColorChain.Proofs.Binary.Signed
import ColorChain.Proofs.Binary.Within
import ColorChain.Proofs.Stepwise.Result
import ColorChain.Proofs.Stepwise.Yields
import ColorChain.Proofs.Stepwise.Blend
import ColorChain.Proofs.Stepwise.Hue
import ColorChain.Proofs.Stepwise.Filter
import ColorChain.Proofs.Chain.UnitCube
import ColorChain.Proofs.Chain.Frame
import ColorChain.Proofs.Chain.Lifetime
import ColorChain.Program.HeldBlock
import ColorChain.Proofs.Program.LastWrite
import ColorChain.Checked
import ColorChain.Proofs.Color.Hsl
import ColorChain.Color.Slices
import ColorChain.Proofs.Color.Slices
import ColorChain.Spectrum
import ColorChain.Proofs.Spectrum.Painting
import ColorChain.Proofs.Spectrum.Quad
import ColorChain.Proofs.Chain.Hidden
import ColorChain.Proofs.Template.Splitting
import ColorChain.Template.Scan
import ColorChain.Proofs.Blend
import ColorChain.Proofs.Decimal.Canonical
