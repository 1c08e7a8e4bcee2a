import Gherkin.Dialect.Basic
import Gherkin.Dialect.Builtin
import Gherkin.Dialect.Decode
import Gherkin.Dialect.Table
import Gherkin.Error
import Gherkin.Feature.Basic
import Gherkin.Feature.Placeholder
import Gherkin.Grammar.Argument
import Gherkin.Grammar.Cursor
import Gherkin.Grammar.Document
import Gherkin.Json
import Gherkin.Keyword
import Gherkin.Line.Basic
import Gherkin.Line.Tokens
import Gherkin.Log
import Gherkin.Proofs.Agreement
import Gherkin.Proofs.Antecedents
import Gherkin.Proofs.Arrangement
import Gherkin.Proofs.Blocks
import Gherkin.Proofs.Borders
import Gherkin.Proofs.CaseOrder
import Gherkin.Proofs.CellPlaces
import Gherkin.Proofs.Change
import Gherkin.Proofs.ChangedCases
import Gherkin.Proofs.ChangedLines
import Gherkin.Proofs.Closure
import Gherkin.Proofs.Compilation
import Gherkin.Proofs.Completeness
import Gherkin.Proofs.Contents
import Gherkin.Proofs.Correspondence
import Gherkin.Proofs.Culprits
import Gherkin.Proofs.DocStrings
import Gherkin.Proofs.Edits
import Gherkin.Proofs.Faults
import Gherkin.Proofs.Fields
import Gherkin.Proofs.FirstViolation
import Gherkin.Proofs.Headers
import Gherkin.Proofs.Indentation
import Gherkin.Proofs.Insertion
import Gherkin.Proofs.Keywords
import Gherkin.Proofs.Layout
import Gherkin.Proofs.Laziness
import Gherkin.Proofs.LineBreaks
import Gherkin.Proofs.LineForms
import Gherkin.Proofs.LineTokens
import Gherkin.Proofs.ListedKeywords
import Gherkin.Proofs.Lockstep
import Gherkin.Proofs.Movement
import Gherkin.Proofs.Partition
import Gherkin.Proofs.Parts
import Gherkin.Proofs.Phrases
import Gherkin.Proofs.Placeholders
import Gherkin.Proofs.Positions
import Gherkin.Proofs.Productions
import Gherkin.Proofs.Provenance
import Gherkin.Proofs.Reading
import Gherkin.Proofs.Registries
import Gherkin.Proofs.Reuse
import Gherkin.Proofs.Roles
import Gherkin.Proofs.RowEdits
import Gherkin.Proofs.Rows
import Gherkin.Proofs.Running
import Gherkin.Proofs.Soundness
import Gherkin.Proofs.SourceLines
import Gherkin.Proofs.Spread
import Gherkin.Proofs.States
import Gherkin.Proofs.StepTables
import Gherkin.Proofs.StepTokens
import Gherkin.Proofs.Streaming
import Gherkin.Proofs.Substitution
import Gherkin.Proofs.Supply
import Gherkin.Proofs.Tables
import Gherkin.Proofs.TagLines
import Gherkin.Proofs.Transcript
import Gherkin.Proofs.Verbatim
import Gherkin.Proofs.Violations
import Gherkin.Proofs.Watch
import Gherkin.Proofs.WatchedGrammar
import Gherkin.Proofs.WatchedLooks
import Gherkin.Proofs.WatchedLoops
import Gherkin.Proofs.WatchedParsers
import Gherkin.Reader.Basic
import Gherkin.Reader.Mode
import Gherkin.Registry
import Gherkin.Setup
import Gherkin.TestCase
import Gherkin.Text
import Gherkin.Token
