import Campaign.Command.Workspace
import Campaign.Csv.Read
import Campaign.Main
import Campaign.Proofs.Binary64.Nearest
import Campaign.Proofs.Binary64.Cut
import Campaign.Proofs.Binary64.Encoding
import Campaign.Proofs.Binary64.Operations
import Campaign.Proofs.Binary64.Arithmetic
import Campaign.Proofs.Binary64.Order
import Campaign.Proofs.Binary64.Whole
import Campaign.Proofs.RankSum.Arrangements
import Campaign.Proofs.RankSum.Table
import Campaign.Proofs.RankSum.Tails
import Campaign.Proofs.RankSum.Midranks
import Campaign.Proofs.Binary64.Sums
import Campaign.Proofs.RankSum.Statistic
import Campaign.Proofs.RankSum.Classes
import Campaign.Proofs.RankSum.Variance
import Campaign.Proofs.RankSum.Score
import Campaign.Proofs.RankSum.Outcome
import Campaign.Proofs.RankSum.Population
import Campaign.Proofs.RankSum.Moments
import Campaign.Proofs.RankSum.Exact
import Campaign.Proofs.RankSum.Places
import Campaign.Proofs.RankSum.Points
import Campaign.Proofs.RankSum.Symmetry
import Campaign.Proofs.Sample.Figures
import Campaign.Proofs.Report.Evaluation
import Campaign.Proofs.Binary64.Scientific
import Campaign.Proofs.Decimal.Layout
import Campaign.Proofs.Decimal.Shortest
import Campaign.Proofs.Decimal.Read
import Campaign.Proofs.Toml.Text
import Campaign.Proofs.Toml.Number
import Campaign.Proofs.Toml.Value
import Campaign.Proofs.Toml.Tree
import Campaign.Proofs.Toml.Lines
import Campaign.Proofs.Toml.Reread
import Campaign.Proofs.Toml.Document
import Campaign.Proofs.Toml.Record
import Campaign.Proofs.Experiment.RoundTrip
import Campaign.Proofs.RankSum.Doubling
import Campaign.Proofs.Binary64.Finite
import Campaign.Proofs.Binary64.Special
import Campaign.Proofs.Binary64.Extended
import Campaign.Proofs.Document.Missing
import Campaign.Proofs.Sample.Rounding
import Campaign.Proofs.Report.Finite
import Campaign.Proofs.Report.Validation
import Campaign.Proofs.Guarded.Basic
import Campaign.Proofs.Guarded.Figures
import Campaign.Proofs.Guarded.Ranks
import Campaign.Proofs.Guarded.Report
import Campaign.Proofs.Csv.Table
import Campaign.Proofs.Csv.Catalog
import Campaign.Proofs.Binary64.Extremes
import Campaign.Proofs.Binary64.Overflow
import Campaign.Proofs.Binary64.Sides
import Campaign.Proofs.Sample.Accuracy
import Campaign.Proofs.Decimal.Plain
import Campaign.Proofs.Sample.Text
import Campaign.Proofs.RankSum.FiniteVariance
import Campaign.Proofs.Chart.Range
import Campaign.Proofs.Chart.Pixels
import Campaign.Proofs.Chart.Drawing
import Campaign.Proofs.Command.Session
import Campaign.Proofs.Command.Export
import Campaign.Proofs.RankSum.Methods
import Campaign.Proofs.Chart.Cover
import Campaign.Proofs.Guarded.Drawing
import Campaign.Proofs.Chart.Slots
import Campaign.Proofs.Binary64.Index
import Campaign.Proofs.Binary64.LastPlace
import Campaign.Proofs.Binary64.Blend
import Campaign.Proofs.Binary64.Near
import Campaign.Proofs.Sample.Order
import Campaign.Proofs.Sample.Percentile
import Campaign.Proofs.Report.Extension
import Campaign.Proofs.RankSum.Packed
import Campaign.Proofs.RankSum.Rounded
import Campaign.Proofs.RankSum.Mirror
import Campaign.Proofs.RankSum.Partitions
import Campaign.Proofs.RankSum.Updates
import Campaign.Proofs.RankSum.Passes
import Campaign.Proofs.RankSum.Construction
