import CustomElements.Build.Bundle
import CustomElements.Build.Flags
import CustomElements.Build.Runner
import CustomElements.Build.SourceRoot
import CustomElements.Build.Target
import CustomElements.CommandLine.Options
import CustomElements.CommandLine.Run
import CustomElements.Component.Basic
import CustomElements.Component.Class
import CustomElements.Component.Discovery
import CustomElements.Component.Member
import CustomElements.Component.Metadata
import CustomElements.Component.Reference
import CustomElements.Component.Sources
import CustomElements.Configuration.Basic
import CustomElements.Configuration.Elements
import CustomElements.Configuration.Reader
import CustomElements.Failure
import CustomElements.Files.Encoding
import CustomElements.Files.Fault
import CustomElements.Files.Glob
import CustomElements.Files.Path
import CustomElements.Files.Pattern
import CustomElements.Files.Tree
import CustomElements.Generation
import CustomElements.Json.Basic
import CustomElements.Json.Comments
import CustomElements.Json.Printer
import CustomElements.Json.Reader
import CustomElements.Main
import CustomElements.Number.Binary64
import CustomElements.Number.Decimal
import CustomElements.Number.Shortest
import CustomElements.Output.Declarations
import CustomElements.Output.Manifest
import CustomElements.Output.Registration
import CustomElements.Output.Specifier
import CustomElements.Output.Store
import CustomElements.ProjectFile.Extends
import CustomElements.ProjectFile.Settings
import CustomElements.Text.Basic
import CustomElements.Text.Blank
import CustomElements.Text.Digit
import CustomElements.Text.LowerCase
import CustomElements.Text.Numeral
import CustomElements.Text.Printable
import CustomElements.Text.Quoted
import CustomElements.TypeScript.Grammar
import CustomElements.TypeScript.Grammar.Expressions
import CustomElements.TypeScript.Grammar.Nonterminal
import CustomElements.TypeScript.Grammar.Statements
import CustomElements.TypeScript.Grammar.Types
import CustomElements.TypeScript.Lexeme
import CustomElements.TypeScript.Literal
import CustomElements.TypeScript.Rule
import CustomElements.TypeScript.Tree
import CustomElements.Value.Basic
import CustomElements.Value.Literal
import CustomElements.Workspace
import CustomElements.Yaml.Block
import CustomElements.Yaml.Character
import CustomElements.Yaml.Document
import CustomElements.Yaml.Node
import CustomElements.Yaml.Quoted
import CustomElements.Yaml.Scalar
import CustomElements.Yaml.Tag
import CustomElements.Yaml.Token
import CustomElements.Yaml.TokenStream
import CustomElements.Proofs.Workspace.Outcome
import CustomElements.Proofs.Workspace.Undisturbed
import CustomElements.Proofs.Workspace.Loading
import CustomElements.Proofs.Generation.Phases
import CustomElements.Proofs.TypeScript.Branches
import CustomElements.Proofs.TypeScript.ObjectLiteral
import CustomElements.Proofs.Component.DescribedClasses
import CustomElements.Proofs.Component.Splicing
import CustomElements.Proofs.Component.LiteralEnd
import CustomElements.Proofs.Component.MetadataLayout
import CustomElements.Proofs.Component.CompletedLiteral
import CustomElements.Proofs.Component.Completion
import CustomElements.Proofs.Component.CompletedText
import CustomElements.Proofs.Component.CompletedTree
import CustomElements.Proofs.Component.ObjectValue
import CustomElements.Proofs.Component.Overriding
import CustomElements.Proofs.Files.NormalPath
import CustomElements.Proofs.Component.Agreement
import CustomElements.Proofs.Component.ProjectHistory
import CustomElements.Proofs.Json.Rendering
import CustomElements.Proofs.Json.Placement
import CustomElements.Proofs.Json.PlainReading
import CustomElements.Proofs.Json.PlainRendering
import CustomElements.Proofs.Json.Quoting
import CustomElements.Proofs.Output.ModuleReader
import CustomElements.Proofs.Output.RegistrationModule
import CustomElements.Proofs.ProjectFile.Chain
import CustomElements.Proofs.ProjectFile.Defaults
import CustomElements.Proofs.ProjectFile.Circularity
import CustomElements.Proofs.ProjectFile.Cancelling
import CustomElements.Proofs.Files.Contents
import CustomElements.Proofs.Workspace.Storing
import CustomElements.Proofs.Generation.Components
import CustomElements.Proofs.Workspace.Parallel
import CustomElements.Proofs.Generation.SideBySide
import CustomElements.Proofs.Generation.Listing
import CustomElements.Proofs.Output.PropertyNames
import CustomElements.Proofs.Output.DeclaredNames
import CustomElements.Proofs.Text.CodePoints
import CustomElements.Proofs.Files.ProperTree
import CustomElements.Proofs.Build.BundleFolder
import CustomElements.Proofs.Generation.ReturnedBundle
import CustomElements.Proofs.Generation.BundleHistory
import CustomElements.Proofs.Files.Outline
import CustomElements.Proofs.Text.Encodable
import CustomElements.Proofs.Output.EncodableTexts
import CustomElements.Proofs.Workspace.Alike
import CustomElements.Proofs.Generation.UnreadArtifacts
import CustomElements.Proofs.Generation.BroughtFiles
import CustomElements.Proofs.Generation.ElementOrder
import CustomElements.Proofs.Configuration.ElementKeys
import CustomElements.Proofs.Component.CompletedAnalysis
import CustomElements.Proofs.Generation.LoadedSources
import CustomElements.Proofs.Text.Hexadecimal
import CustomElements.Proofs.TypeScript.EscapeSequences
import CustomElements.Proofs.Component.StringProperties
import CustomElements.Proofs.FirstMatch
import CustomElements.Proofs.Component.ReadableMembers
import CustomElements.Proofs.Component.ExtractedMembers
import CustomElements.Proofs.Component.CommentedTrees
import CustomElements.Proofs.Component.CommentedClasses
import CustomElements.Proofs.RelatedAnswers
import CustomElements.Proofs.TypeScript.Settling
import CustomElements.Proofs.TypeScript.LiteralPieces
import CustomElements.Proofs.Component.MarkedClasses
import CustomElements.Proofs.Component.Offences
import CustomElements.Proofs.ProjectFile.NearestSetting
import CustomElements.Proofs.Workspace.Reports
import CustomElements.Proofs.ProjectFile.ReadOnce
import CustomElements.Proofs.ProjectFile.SelectionOrder
import CustomElements.Proofs.Output.ModuleSpecifiers
import CustomElements.Proofs.Output.RelativeImports
import CustomElements.Proofs.Output.InterfaceNames
import CustomElements.Proofs.Json.PrintedRendering
import CustomElements.Proofs.Output.ManifestReading
import CustomElements.Proofs.Output.StoreCalls
import CustomElements.Proofs.Build.BundleMove
import CustomElements.Proofs.Build.FlagNames
import CustomElements.Proofs.Build.BuildArguments
import CustomElements.Proofs.Configuration.ElementForms
import CustomElements.Proofs.Component.CompletedFile
import CustomElements.Proofs.Yaml.Construction
import CustomElements.Proofs.Yaml.RepeatedKeys
import CustomElements.Proofs.Yaml.Faults
import CustomElements.Proofs.Json.LongIntegers
import CustomElements.Proofs.Configuration.LoadFailures
import CustomElements.Proofs.Component.ClassResolution
import CustomElements.Proofs.Component.ScanOrder
import CustomElements.Proofs.Component.DirectoryScan
import CustomElements.Proofs.ProjectFile.UnsearchableRules
import CustomElements.Proofs.ProjectFile.ReadingFaults
import CustomElements.Proofs.Component.ProjectLoading
import CustomElements.Proofs.Generation.SourceRoots
import CustomElements.Proofs.Json.CommentScan
import CustomElements.Proofs.Json.CommaScan
import CustomElements.Proofs.Build.TargetForms
import CustomElements.Proofs.CommandLine.CompletedFiles
import CustomElements.Proofs.Component.ReferenceForms
