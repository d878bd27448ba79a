import Antimeridian.Codec
import Antimeridian.Ewkb.Decode
import Antimeridian.Grid
import Antimeridian.Proofs.Ewkb.Layout
import Antimeridian.Proofs.Split.Assignment
import Antimeridian.Proofs.Split.Exactness
import Antimeridian.Proofs.Ewkb.RoundTrip
import Antimeridian.Proofs.Split.Parity
import Antimeridian.Proofs.Split.Parts
import Antimeridian.Proofs.Region
import Antimeridian.Proofs.Cell
import Antimeridian.Proofs.Region.Concatenation
import Antimeridian.Proofs.Split.Reach
import Antimeridian.Proofs.Double.Rank
import Antimeridian.Proofs.Split.PrimeMeridian
import Antimeridian.Proofs.Double.Nearest
import Antimeridian.Proofs.Double.Rounding
import Antimeridian.Proofs.Double.Bounds
import Antimeridian.Proofs.Cut
import Antimeridian.Proofs.Split.Extent
import Antimeridian.Proofs.FlatMap
import Antimeridian.Proofs.Split.Relisting
import Antimeridian.Proofs.Split.Independence
import Antimeridian.Proofs.PolarCap
import Antimeridian.Proofs.Split.Conservation
import Antimeridian.Proofs.Ewkb.Closing
import Antimeridian.Proofs.Ring.Listing
import Antimeridian.Proofs.Ring.Position
import Antimeridian.Proofs.Arc
import Antimeridian.Proofs.Double.Opposite
import Antimeridian.Proofs.Vec
import Antimeridian.Proofs.Arc.Reversal
import Antimeridian.Proofs.Box
import Antimeridian.Proofs.Split.Log
import Antimeridian.Proofs.Json.Grammar
import Antimeridian.Proofs.Json.Printer
import Antimeridian.Proofs.Settings
import Antimeridian.Proofs.Split.Detection
import Antimeridian.Proofs.Codec
import Antimeridian.Proofs.Json.Acceptance
import Antimeridian.Proofs.Settings.Format
import Antimeridian.Proofs.Split.Rounds
import Antimeridian.Proofs.Split.Links
import Antimeridian.Proofs.Split.Ranking
import Antimeridian.Proofs.Ring.Crossings
import Antimeridian.Proofs.Box.Merging
