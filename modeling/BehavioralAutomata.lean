import BehavioralAutomata.Render
import BehavioralAutomata.AssocMap
import BehavioralAutomata.WordMap
import BehavioralAutomata.Queue
import BehavioralAutomata.PairSet
import BehavioralAutomata.Alphabet.Basic
import BehavioralAutomata.Alphabet.Matching
import BehavioralAutomata.Acceptor.Basic
import BehavioralAutomata.Acceptor.Blueprint
import BehavioralAutomata.Acceptor.Completion
import BehavioralAutomata.Acceptor.Exploration
import BehavioralAutomata.Text.Renderer
import BehavioralAutomata.Text.CodeRanges.Basic
import BehavioralAutomata.Text.CodeRanges.Width
import BehavioralAutomata.Text.CodeRanges.Emoji
import BehavioralAutomata.Text.CodeRanges.Joining
import BehavioralAutomata.Text.Width
import BehavioralAutomata.Text.Escape
import BehavioralAutomata.Text.Style
import BehavioralAutomata.Text.Table
import BehavioralAutomata.Acceptor.Printer
import BehavioralAutomata.LocalSymbol
import BehavioralAutomata.LocalAlphabet
import BehavioralAutomata.System.Configuration
import BehavioralAutomata.System.Basic
import BehavioralAutomata.System.Plain
import BehavioralAutomata.System.Local
import BehavioralAutomata.System.Printer
import BehavioralAutomata.Separation.Revival
import BehavioralAutomata.Separation.Search
import BehavioralAutomata.Random.Source
import BehavioralAutomata.Random.Generator
import BehavioralAutomata.Random.Systems
import BehavioralAutomata.Learning.LabelledWord
import BehavioralAutomata.Learning.Transcript
import BehavioralAutomata.Learning.Error
import BehavioralAutomata.Learning.SequenceStore
import BehavioralAutomata.Learning.Embedding
import BehavioralAutomata.Learning.Answers
import BehavioralAutomata.Learning.ObservationTable.Basic
import BehavioralAutomata.Learning.ObservationTable.Printer
import BehavioralAutomata.Learning.ObservationTable.Limit
import BehavioralAutomata.Learning.LocalLearner
import BehavioralAutomata.Learning.Session
import BehavioralAutomata.Learning.Lesson
import BehavioralAutomata.Proofs.Loops
import BehavioralAutomata.Proofs.Learning.Filling
import BehavioralAutomata.Proofs.Learning.Closing
import BehavioralAutomata.Proofs.Learning.TableHypothesis
import BehavioralAutomata.Proofs.Learning.TableRefinement
import BehavioralAutomata.Proofs.Learning.Histories
import BehavioralAutomata.Proofs.Learning.Minimality
import BehavioralAutomata.Proofs.Learning.LocalLanguage
import BehavioralAutomata.Proofs.Learning.Questions
import BehavioralAutomata.Proofs.Learning.Scanning
import BehavioralAutomata.Proofs.Acceptor.Exploration
import BehavioralAutomata.Proofs.Acceptor.Recognition
import BehavioralAutomata.Proofs.Acceptor.Completion
import BehavioralAutomata.Proofs.Learning.Searching
import BehavioralAutomata.Proofs.Learning.Sessions
import BehavioralAutomata.Proofs.Learning.Limits
import BehavioralAutomata.Proofs.Learning.Discovery
import BehavioralAutomata.Proofs.Learning.Extraction
import BehavioralAutomata.Proofs.Learning.Hypotheses
import BehavioralAutomata.Proofs.Learning.Repair
import BehavioralAutomata.Proofs.Learning.Refinement
import BehavioralAutomata.Proofs.Learning.Lessons
import BehavioralAutomata.Proofs.Learning.Resolution
import BehavioralAutomata.Proofs.Learning.Attribution
import BehavioralAutomata.Proofs.Learning.Verdicts
import BehavioralAutomata.Proofs.Outcomes
import BehavioralAutomata.Proofs.Alphabet.Balance
import BehavioralAutomata.Proofs.System.Stacks
import BehavioralAutomata.Proofs.System.Nesting
import BehavioralAutomata.Proofs.System.LocalRuns
import BehavioralAutomata.Proofs.System.Frames
import BehavioralAutomata.Proofs.System.Locality
import BehavioralAutomata.Proofs.System.Completion
import BehavioralAutomata.Proofs.System.Views
import BehavioralAutomata.Proofs.Separation.Revival
import BehavioralAutomata.Proofs.Separation.Agreement
import BehavioralAutomata.Proofs.Separation.Visits
import BehavioralAutomata.Proofs.Separation.Findings
import BehavioralAutomata.Proofs.Separation.Exploration
import BehavioralAutomata.Proofs.Separation.Rounds
import BehavioralAutomata.Proofs.Separation.Completeness
import BehavioralAutomata.Proofs.Separation.Views
import BehavioralAutomata.Proofs.Learning.Changes
import BehavioralAutomata.Proofs.Learning.LocalCounterexamples
import BehavioralAutomata.Proofs.Learning.Responses
import BehavioralAutomata.Proofs.Learning.Equipment
import BehavioralAutomata.Proofs.Learning.Availability
import BehavioralAutomata.Proofs.Learning.Events
import BehavioralAutomata.Proofs.Learning.Budgets
import BehavioralAutomata.Proofs.Learning.PrefixClosure
import BehavioralAutomata.Proofs.Learning.Courses
import BehavioralAutomata.Proofs.Learning.Iteration
import BehavioralAutomata.Proofs.Learning.Replay
import BehavioralAutomata.Proofs.Learning.Retention
import BehavioralAutomata.Proofs.Learning.Reports
import BehavioralAutomata.Proofs.Learning.Settlement
import BehavioralAutomata.Proofs.Alphabet.Matching
import BehavioralAutomata.Proofs.Learning.StartedTables
import BehavioralAutomata.Proofs.Learning.Representatives
import BehavioralAutomata.Proofs.Acceptor.ShortestWords
import BehavioralAutomata.Proofs.Alphabet.NormalForm
import BehavioralAutomata.Proofs.Alphabet.Invocations
import BehavioralAutomata.Proofs.Entering
import BehavioralAutomata.Proofs.Learning.HypothesisSearch
import BehavioralAutomata.Proofs.Learning.Scans
import BehavioralAutomata.Proofs.Learning.ScanHistories
import BehavioralAutomata.Proofs.Separation.Exchange
import BehavioralAutomata.Proofs.Learning.Unreported
import BehavioralAutomata.Proofs.Acceptor.Construction
import BehavioralAutomata.Proofs.Random.Generator
import BehavioralAutomata.Proofs.Random.Draws
import BehavioralAutomata.Proofs.Random.Shapes
import BehavioralAutomata.Proofs.Random.Keylocks
import BehavioralAutomata.Proofs.Random.Failures
import BehavioralAutomata.Proofs.Learning.Inquiries
import BehavioralAutomata.Proofs.Learning.CheckedClosing
import BehavioralAutomata.Proofs.Learning.TableInvariant
