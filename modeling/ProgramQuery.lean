import ProgramQuery.Program.Shape
import ProgramQuery.Source.ToProgram
import ProgramQuery.Analysis
import ProgramQuery.Proofs.DraftRuns
import ProgramQuery.Proofs.LinkPaths
import ProgramQuery.Proofs.PlacementTrace
import ProgramQuery.Proofs.ProgramTables
import ProgramQuery.Proofs.WellFormedPrograms
import ProgramQuery.Proofs.SortedSetLaws
import ProgramQuery.Proofs.EffectRound
import ProgramQuery.Proofs.EffectGrowth
import ProgramQuery.Proofs.EffectPaths
import ProgramQuery.Proofs.SolverAnswers
import ProgramQuery.Proofs.EffectAnswers
import ProgramQuery.Proofs.NestingAnswers
import ProgramQuery.Proofs.SequenceAnswers
import ProgramQuery.Proofs.SolverAgreement
import ProgramQuery.Proofs.ClauseNarrowing
import ProgramQuery.Proofs.LargestFamily
import ProgramQuery.Proofs.ClosureRelations
import ProgramQuery.Proofs.LinkedDrafts
import ProgramQuery.Proofs.QuerySolutions
import ProgramQuery.Proofs.WrittenSource
import ProgramQuery.Proofs.TokenMatches
import ProgramQuery.Proofs.ExprMatches
import ProgramQuery.Proofs.SourceMatches
import ProgramQuery.Proofs.Listings
import ProgramQuery.Proofs.LaidPrograms
import ProgramQuery.Proofs.ReadPrograms
import ProgramQuery.Proofs.UnfoldedPrograms
import ProgramQuery.Proofs.ComparedPrograms
import ProgramQuery.Proofs.RenamedPrograms
import ProgramQuery.Proofs.SameAnswers
import ProgramQuery.Proofs.OverwrittenLinks
import ProgramQuery.Proofs.MatchedTokens
import ProgramQuery.Proofs.MatchedSources
import ProgramQuery.Proofs.SourceFaults
import ProgramQuery.Proofs.AcceptedTexts
import ProgramQuery.Proofs.ExprTexts
import ProgramQuery.Proofs.CheckedEffects
import ProgramQuery.Proofs.ComparisonAnswers
import ProgramQuery.Proofs.LineLayout
import ProgramQuery.Proofs.NarrowingRuns
import ProgramQuery.Proofs.ClauseSides
import ProgramQuery.Proofs.NestingRoutes
import ProgramQuery.Proofs.UncheckedAnswers
import ProgramQuery.Proofs.DraftFaults
import ProgramQuery.Program.Builder
import ProgramQuery.Proofs.BuilderRuns
import ProgramQuery.Proofs.ClosedAnswers
import ProgramQuery.Proofs.EndlessComparisons
import ProgramQuery.Proofs.VariableHistories
import ProgramQuery.Proofs.ConditionOrder
import ProgramQuery.Proofs.SetHistories
import ProgramQuery.Proofs.EndlessLinks
