import TabledRules.Builtin.Standard
import TabledRules.Engine
import TabledRules.Wire.Reports
import TabledRules.Wire.Terms
import TabledRules.Proofs.Bindings
import TabledRules.Proofs.Unify
import TabledRules.Proofs.Operations
import TabledRules.Proofs.Placement
import TabledRules.Proofs.HeadCode
import TabledRules.Proofs.BodyCode
import TabledRules.Proofs.Frames
import TabledRules.Proofs.Turns
import TabledRules.Proofs.Nodes
import TabledRules.Proofs.Tables
import TabledRules.Proofs.Soundness
import TabledRules.Proofs.SoundTables
import TabledRules.Proofs.Forms
import TabledRules.Proofs.Instances
import TabledRules.Proofs.Derivations
import TabledRules.Proofs.Histories
import TabledRules.Proofs.SoundQueries
import TabledRules.Proofs.Realms
import TabledRules.Proofs.Wiring
import TabledRules.Proofs.Ties
import TabledRules.Proofs.Deadlocks
import TabledRules.Proofs.Moves
import TabledRules.Proofs.Upkeep
import TabledRules.Proofs.KeptSites
import TabledRules.Proofs.Wakeups
import TabledRules.Proofs.ExactCompletion
import TabledRules.Proofs.Completeness
import TabledRules.Proofs.Failures
import TabledRules.Proofs.Lives
import TabledRules.Proofs.Changes
import TabledRules.Proofs.DeadQueries
import TabledRules.Proofs.Variants
import TabledRules.Proofs.Enrolment
import TabledRules.Proofs.Bookkeeping
import TabledRules.Proofs.Rereading
import TabledRules.Proofs.TableReaders
import TabledRules.Proofs.ReadTables
import TabledRules.Proofs.Quiet
import TabledRules.Proofs.ChoicePoints
import TabledRules.Proofs.Raising
import TabledRules.Proofs.RaisedCompletion
import TabledRules.Proofs.RaisedMachines
import TabledRules.Proofs.RaisedRuns
import TabledRules.Proofs.FreshEngines
import TabledRules.Proofs.RenamedRules
import TabledRules.Proofs.Schedules
import TabledRules.Proofs.Regularity
import TabledRules.Proofs.Unifiers
import TabledRules.Proofs.Courses
import TabledRules.Proofs.Renamings
import TabledRules.Proofs.DirectSearch
import TabledRules.Proofs.SearchOrder
import TabledRules.Proofs.Solutions
import TabledRules.Proofs.Tabling
import TabledRules.Proofs.Indexes
import TabledRules.Proofs.ClauseSelection
import TabledRules.Proofs.LeadingTests
import TabledRules.Proofs.RegisterUse
import TabledRules.Proofs.SingleSteps
import TabledRules.Proofs.RegisterRuns
import TabledRules.Proofs.ReadyCode
import TabledRules.Proofs.Arenas
import TabledRules.Proofs.SharedFrames
import TabledRules.Proofs.Backtracking
import TabledRules.Proofs.Suspension
import TabledRules.Proofs.Readings
import TabledRules.Proofs.Timelines
import TabledRules.Proofs.Gains
import TabledRules.Proofs.GroundTables
import TabledRules.Proofs.Touches
import TabledRules.Proofs.Containment
import TabledRules.Proofs.SafeTouches
import TabledRules.Proofs.Arrivals
import TabledRules.Proofs.Cycles
import TabledRules.Proofs.VariantKeys
import TabledRules.Proofs.GroundMatches
import TabledRules.Proofs.StoreScans
import TabledRules.Proofs.Absences
import TabledRules.Proofs.SearchRuns
import TabledRules.Proofs.EvaluatedSearch
import TabledRules.Proofs.UntabledQueries
import TabledRules.Proofs.BindingHistories
import TabledRules.Proofs.LookingAhead
import TabledRules.Proofs.FlatTerms
import TabledRules.Proofs.FlatRules
import TabledRules.Proofs.WireForms
import TabledRules.Proofs.FlatGoals
import TabledRules.Proofs.FlatMachines
import TabledRules.Proofs.Costs
import TabledRules.Proofs.FlatSessions
import TabledRules.Proofs.TableCosts
import TabledRules.Proofs.FlatSteps
import TabledRules.Proofs.FlatRuns
import TabledRules.Proofs.FlatPumps
import TabledRules.Proofs.FlatSearches
import TabledRules.Proofs.FatalFailures
import TabledRules.Proofs.FlatSites
import TabledRules.Proofs.TameSites
import TabledRules.Proofs.StoreQueries
import TabledRules.Proofs.Termination
