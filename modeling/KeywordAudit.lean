import KeywordAudit.Text.Blank
import KeywordAudit.Text.Cut
import KeywordAudit.Text.Occurs
import KeywordAudit.Text.Lines
import KeywordAudit.Distinct
import KeywordAudit.Increasing
import KeywordAudit.Text.NameSet
import KeywordAudit.Glob
import KeywordAudit.Descriptor
import KeywordAudit.KeywordList
import KeywordAudit.Program.Basic
import KeywordAudit.Log
import KeywordAudit.Program.CallGraph
import KeywordAudit.Program.Builder
import KeywordAudit.Program.View
import KeywordAudit.Analysis.Policy
import KeywordAudit.Analysis.Inspection
import KeywordAudit.Analysis.Marks
import KeywordAudit.Analysis.RootSearch
import KeywordAudit.Analysis.Resolution
import KeywordAudit.Format.Schema
import KeywordAudit.Json.Value
import KeywordAudit.Json.Printer
import KeywordAudit.Json.Reader.Basic
import KeywordAudit.Json.Reader.Text
import KeywordAudit.Json.Reader.Number
import KeywordAudit.Json.Reader.Skip
import KeywordAudit.Json.Reader
import KeywordAudit.Text.Hex
import KeywordAudit.Yaml.Source
import KeywordAudit.Yaml.Token
import KeywordAudit.Yaml.Scalar.Plain
import KeywordAudit.Yaml.Scalar.Quoted
import KeywordAudit.Yaml.Scalar.Block
import KeywordAudit.Yaml.Tag
import KeywordAudit.Yaml.Token.Stream
import KeywordAudit.Yaml.Node
import KeywordAudit.Yaml.Anchors
import KeywordAudit.Yaml.Decoder
import KeywordAudit.Numeral
import KeywordAudit.Toml.Value
import KeywordAudit.Toml.Text
import KeywordAudit.Toml.Number
import KeywordAudit.Toml.Document
import KeywordAudit.Toml.Decoder
import KeywordAudit.Classification
import KeywordAudit.FileTree
import KeywordAudit.Config.Basic
import KeywordAudit.Config.Schema
import KeywordAudit.Config.Load
import KeywordAudit.Model.Basic
import KeywordAudit.Model.Schema
import KeywordAudit.Model.Load
import KeywordAudit.KeywordList.Load
import KeywordAudit.Report.Ink
import KeywordAudit.Report.Audit
import KeywordAudit.Report.Document
import KeywordAudit.Report.Terminal
import KeywordAudit.Report.Output
import KeywordAudit.CommandLine.Options
import KeywordAudit.CommandLine.Parse
import KeywordAudit.Run
import KeywordAudit.Main
import KeywordAudit.Proofs.RootSearch
import KeywordAudit.Proofs.Inspection
import KeywordAudit.Proofs.PackageKeywords
import KeywordAudit.Proofs.ContainerStatements
import KeywordAudit.Proofs.Resolution
import KeywordAudit.Proofs.PlainResolution
import KeywordAudit.Proofs.Builder
import KeywordAudit.Proofs.ModelBuild
import KeywordAudit.Proofs.ModelAnalysis
import KeywordAudit.Proofs.MethodOrder
import KeywordAudit.Proofs.Session
import KeywordAudit.Proofs.SessionCalls
import KeywordAudit.Proofs.FailedSteps
import KeywordAudit.Proofs.RepeatedSignatures
import KeywordAudit.Proofs.ModelProgram
import KeywordAudit.Proofs.ReportOrder
import KeywordAudit.Proofs.WiderSearch
import KeywordAudit.Proofs.KeywordChoice
import KeywordAudit.Proofs.ClassificationOrder
import KeywordAudit.Proofs.ReportConsistency
import KeywordAudit.Proofs.CallAccounting
import KeywordAudit.Proofs.SyntheticRoots
import KeywordAudit.Proofs.CallCycles
import KeywordAudit.Proofs.SearchRounds
import KeywordAudit.Proofs.MarkRow
import KeywordAudit.Proofs.QueueOrder
import KeywordAudit.Proofs.JsonForm
import KeywordAudit.Proofs.JsonText
import KeywordAudit.Proofs.ModelRoundTrip
import KeywordAudit.Proofs.ReportText
import KeywordAudit.Proofs.FileWrites
import KeywordAudit.Proofs.RunEffects
import KeywordAudit.Proofs.DescriptorGrammar
import KeywordAudit.Proofs.DescriptorRoundTrip
import KeywordAudit.Proofs.DescriptorClass
import KeywordAudit.Proofs.GlobPatterns
import KeywordAudit.Proofs.KeywordText
import KeywordAudit.Proofs.KeywordRoundTrip
import KeywordAudit.Proofs.TerminalText
import KeywordAudit.Proofs.TerminalListing
