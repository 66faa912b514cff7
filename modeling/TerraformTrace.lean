import TerraformTrace.Cache.Basic
import TerraformTrace.Cache.Stats
import TerraformTrace.CommandLine.Arguments
import TerraformTrace.CommandLine.Run
import TerraformTrace.Engine.Context
import TerraformTrace.Engine.Lookup
import TerraformTrace.Engine.Query
import TerraformTrace.Engine.Request
import TerraformTrace.Engine.Resolve
import TerraformTrace.Engine.Session
import TerraformTrace.Files.Access
import TerraformTrace.Files.Tree
import TerraformTrace.Hcl.Assignment
import TerraformTrace.Hcl.Block
import TerraformTrace.Hcl.Declaration
import TerraformTrace.Hcl.Heredoc
import TerraformTrace.Hcl.Item
import TerraformTrace.Hcl.Mask
import TerraformTrace.Hcl.Measure
import TerraformTrace.Json.Basic
import TerraformTrace.Json.Reader
import TerraformTrace.Json.Writer
import TerraformTrace.Literal
import TerraformTrace.Main
import TerraformTrace.Number.Binary64
import TerraformTrace.Number.Decimal
import TerraformTrace.Path
import TerraformTrace.Reference.Basic
import TerraformTrace.Reference.Occurrence
import TerraformTrace.Reference.Substitution
import TerraformTrace.Registry
import TerraformTrace.Report
import TerraformTrace.Scan
import TerraformTrace.Settings.Basic
import TerraformTrace.Settings.Check
import TerraformTrace.Settings.Load
import TerraformTrace.Text.Basic
import TerraformTrace.Text.Blank
import TerraformTrace.Text.Digit
import TerraformTrace.Text.Encoding
import TerraformTrace.Text.Quoted
import TerraformTrace.Text.Word
import TerraformTrace.Yaml.Atom
import TerraformTrace.Yaml.Cursor
import TerraformTrace.Yaml.Document
import TerraformTrace.Yaml.Node
import TerraformTrace.Yaml.Plain
import TerraformTrace.Yaml.Quoted
import TerraformTrace.Yaml.Timestamp
import TerraformTrace.Yaml.Token
import TerraformTrace.Proofs.Keeps
import TerraformTrace.Proofs.Key
import TerraformTrace.Proofs.Path
import TerraformTrace.Proofs.Reference
import TerraformTrace.Proofs.Run
import TerraformTrace.Proofs.Cut
import TerraformTrace.Proofs.Evaluation
import TerraformTrace.Proofs.Frame
import TerraformTrace.Proofs.Lookup
import TerraformTrace.Proofs.Faithful
import TerraformTrace.Proofs.FileChange
import TerraformTrace.Proofs.Invalidation
import TerraformTrace.Proofs.Follows
import TerraformTrace.Proofs.Soundness
import TerraformTrace.Proofs.Transparency
import TerraformTrace.Proofs.Tree
import TerraformTrace.Proofs.Assignments
import TerraformTrace.Proofs.SearchOrder
import TerraformTrace.Proofs.Alias
import TerraformTrace.Proofs.AliasChain
import TerraformTrace.Proofs.PassThrough
import TerraformTrace.Proofs.Coherent
import TerraformTrace.Proofs.Alike
import TerraformTrace.Proofs.Confinement
import TerraformTrace.Proofs.CacheHistory
import TerraformTrace.Proofs.Observation
import TerraformTrace.Proofs.Recollection
import TerraformTrace.Proofs.CallSite
import TerraformTrace.Proofs.Feeding
import TerraformTrace.Proofs.MaskRun
import TerraformTrace.Proofs.Balanced
import TerraformTrace.Proofs.Term
import TerraformTrace.Proofs.ValueFile
import TerraformTrace.Proofs.ConfigurationFile
import TerraformTrace.Proofs.MaskPath
import TerraformTrace.Proofs.Walk
import TerraformTrace.Proofs.WholeWord
import TerraformTrace.Proofs.Indistinct
import TerraformTrace.Proofs.Unreadable
import TerraformTrace.Proofs.Ownership
import TerraformTrace.Proofs.ExitCode
import TerraformTrace.Proofs.JsonScalar
import TerraformTrace.Proofs.LiteralText
import TerraformTrace.Proofs.RoundTrip
import TerraformTrace.Proofs.Replacement
import TerraformTrace.Proofs.Template
import TerraformTrace.Proofs.CaptureFree
import TerraformTrace.Proofs.HeredocText
import TerraformTrace.Proofs.MaskRestart
import TerraformTrace.Proofs.LiteralContent
import TerraformTrace.Proofs.MaskCut
import TerraformTrace.Proofs.SearchSpan
import TerraformTrace.Proofs.ValueSource
import TerraformTrace.Proofs.ValueExtent
import TerraformTrace.Proofs.HeredocTemplate
import TerraformTrace.Proofs.JsonGrammar
import TerraformTrace.Proofs.JsonRoundTrip
import TerraformTrace.Proofs.Projection
import TerraformTrace.Proofs.MaskBrace
import TerraformTrace.Proofs.BlockBody
import TerraformTrace.Proofs.ScanPosition
import TerraformTrace.Proofs.Notification
import TerraformTrace.Proofs.FrameKey
import TerraformTrace.Proofs.JsonStrings
import TerraformTrace.Proofs.ObjectScan
import TerraformTrace.Proofs.ObjectKeys
import TerraformTrace.Proofs.ReferenceSyntax
import TerraformTrace.Proofs.NumberForm
import TerraformTrace.Proofs.SettingsFields
import TerraformTrace.Proofs.UsableSettings
import TerraformTrace.Proofs.PropertyPaths
import TerraformTrace.Proofs.HeredocRoundTrip
import TerraformTrace.Proofs.KeyFragment
import TerraformTrace.Proofs.MaskSeam
import TerraformTrace.Proofs.StatementSpan
import TerraformTrace.Proofs.FrameNesting
import TerraformTrace.Proofs.LiteralCalls
