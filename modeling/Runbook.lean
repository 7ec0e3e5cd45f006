import Runbook.Main
import Runbook.Editor.Session
import Runbook.Library.Shelf
import Runbook.Workflow.Draft
import Runbook.Proofs.ErrorFree
import Runbook.Proofs.ExpressionText
import Runbook.Proofs.LivePaths
import Runbook.Proofs.TemplateParts
import Runbook.Proofs.BlockPrinter
import Runbook.Proofs.FirstOccurrences
import Runbook.Proofs.Manifest
import Runbook.Proofs.Redaction
import Runbook.Proofs.Zipper
import Runbook.Proofs.SessionRun
import Runbook.Proofs.CompileOutcome
import Runbook.Proofs.Violations
import Runbook.Proofs.DeadNodes
import Runbook.Proofs.EditRules
import Runbook.Proofs.Rounding
import Runbook.Proofs.NumberText
import Runbook.Proofs.ValueText
import Runbook.Proofs.FormatLaws
import Runbook.Proofs.RecordLaws
import Runbook.Proofs.TaggedLaws
import Runbook.Proofs.StepForms
import Runbook.Proofs.SavedForms
import Runbook.Proofs.ShelfMirror
import Runbook.Proofs.Reordering
import Runbook.Proofs.BackEdges
import Runbook.Proofs.Shape
import Runbook.Proofs.HiddenNodes
import Runbook.Proofs.StrayCycles
import Runbook.Proofs.SlotLaws
import Runbook.Proofs.SettingSlots
import Runbook.Proofs.PatchMerge
import Runbook.Proofs.ExpressionReading
import Runbook.Proofs.TemplateReading
import Runbook.Proofs.LastingRemoval
import Runbook.Proofs.CycleWarnings
import Runbook.Proofs.SpareEdges
import Runbook.Proofs.Tokens
import Runbook.Proofs.ManifestRounds
import Runbook.Proofs.SearchRun
import Runbook.Proofs.AcceptedTemplates
import Runbook.Proofs.BlockBodies
import Runbook.Proofs.Walk
import Runbook.Proofs.WalkCalls
import Runbook.Proofs.WalkTree
import Runbook.Proofs.WalkEnds
import Runbook.Proofs.OnePass
import Runbook.Proofs.CommandRuns
