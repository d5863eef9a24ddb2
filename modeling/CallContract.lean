import CallContract.Contract.Payload
import CallContract.Files.Lint
import CallContract.Proofs.Trails
import CallContract.Proofs.WalkInvariant
import CallContract.Proofs.DeclaredNames
import CallContract.Proofs.HoldingCycles
import CallContract.Proofs.Renaming
import CallContract.Proofs.WellFormed
import CallContract.Proofs.Tolerance
import CallContract.Proofs.Acceptance
import CallContract.Proofs.Resolution
import CallContract.Proofs.JsonParts
import CallContract.Proofs.NormalForm
import CallContract.Proofs.Outlines
import CallContract.Proofs.RoundTrip
import CallContract.Proofs.WholeReadings
import CallContract.Proofs.ReaderSteps
import CallContract.Proofs.PrintedText
import CallContract.Proofs.TextAndValue
import CallContract.Proofs.Shapes
import CallContract.Proofs.Repetitions
import CallContract.Proofs.Reloading
import CallContract.Proofs.Fragments
import CallContract.Proofs.ContractTypes
import CallContract.Proofs.SchemaForms
import CallContract.Proofs.Exports
import CallContract.Proofs.SchemaVerdicts
import CallContract.Proofs.Conformance
import CallContract.Proofs.Representability
import CallContract.Proofs.ReorderedTypes
import CallContract.Proofs.DeclarationOrder
import CallContract.Proofs.StrictnessLevels
import CallContract.Proofs.ReferableNames
import CallContract.Proofs.ShapeGrammar
import CallContract.Proofs.TypePositions
import CallContract.Proofs.WrittenSchemas
import CallContract.Proofs.UnusedDefinitions
import CallContract.Proofs.UnusedDeclarations
import CallContract.Proofs.EntryPaths
import CallContract.Proofs.LintedFiles
import CallContract.Proofs.TreeEntries
import CallContract.Proofs.UnionItems
import CallContract.Proofs.WrongShapes
import CallContract.Proofs.LintReports
import CallContract.Proofs.FindingCodes
import CallContract.Proofs.UndeclaredNames
import CallContract.Proofs.FirstDeclarations
import CallContract.Proofs.WiderPayloads
import CallContract.Proofs.ClosedSchemas
import CallContract.Proofs.FirstOccurrences
import CallContract.Proofs.MemberFindings
import CallContract.Proofs.DeclarationRuns
import CallContract.Proofs.WalkRuns
