import EmitterLogic.Action.Effect
import EmitterLogic.Behavior.Variable
import EmitterLogic.Behavior.Basic
import EmitterLogic.Behavior.Kotlin
import EmitterLogic.Cache
import EmitterLogic.Command.Basic
import EmitterLogic.Condition.Evaluation
import EmitterLogic.Condition.Filter
import EmitterLogic.Condition.Kotlin
import EmitterLogic.Condition.Normal
import EmitterLogic.Condition.Rule
import EmitterLogic.Session
import EmitterLogic.Datum.Basic
import EmitterLogic.Datum.Json
import EmitterLogic.Script.Machine
import EmitterLogic.Fault
import EmitterLogic.Formula.Program
import EmitterLogic.Formula.Token
import EmitterLogic.Kotlin.Literal
import EmitterLogic.Main
import EmitterLogic.Number.Basic
import EmitterLogic.Number.Reading
import EmitterLogic.Number.Shortest
import EmitterLogic.Predicate.Basic
import EmitterLogic.Preview.Basic
import EmitterLogic.Preview.Death
import EmitterLogic.Script.Bindings
import EmitterLogic.Script.Interpreter
import EmitterLogic.Script.Parser
import EmitterLogic.Script.Syntax
import EmitterLogic.Script.Token
import EmitterLogic.Script.Value
import EmitterLogic.Term.Basic
import EmitterLogic.Term.Name
import EmitterLogic.Text.Letter
import EmitterLogic.Text.Quoted
import EmitterLogic.Text.Scan
import EmitterLogic.Tick.Check
import EmitterLogic.Tick.Completion
import EmitterLogic.Tick.Host
import EmitterLogic.Tick.Kotlin
import EmitterLogic.Tick.Run
import EmitterLogic.Tick.Scan
import EmitterLogic.Tick.Store
import EmitterLogic.Tick.Vocabulary
import EmitterLogic.Proofs.Behavior.Variable
import EmitterLogic.Proofs.Behavior.Settled
import EmitterLogic.Proofs.Behavior.Reread
import EmitterLogic.Proofs.Behavior.SavedCode
import EmitterLogic.Proofs.Datum.Equality
import EmitterLogic.Proofs.Tick.Cleaning
import EmitterLogic.Proofs.Datum.Fields
import EmitterLogic.Proofs.Preview.Signature
import EmitterLogic.Proofs.Fault
import EmitterLogic.Proofs.Number.Spelling
import EmitterLogic.Proofs.Number.Units
import EmitterLogic.Proofs.Number.Whole
import EmitterLogic.Proofs.Preview.Adoption
import EmitterLogic.Proofs.Preview.Bounds
import EmitterLogic.Proofs.Preview.Invariant
import EmitterLogic.Proofs.Preview.Recompilation
import EmitterLogic.Proofs.Script.Relations
import EmitterLogic.Proofs.Script.Compatible
import EmitterLogic.Proofs.Script.Fence
import EmitterLogic.Proofs.Script.Texts
import EmitterLogic.Proofs.Script.HostChange
import EmitterLogic.Proofs.Tick.StoreChange
import EmitterLogic.Proofs.Tick.Verdict
import EmitterLogic.Proofs.Number.Sign
import EmitterLogic.Proofs.Datum.InRange
import EmitterLogic.Proofs.Formula.Tree
import EmitterLogic.Proofs.Number.Nearest
import EmitterLogic.Proofs.Number.Decimal
import EmitterLogic.Proofs.Number.Shortest
import EmitterLogic.Proofs.Number.Written
import EmitterLogic.Proofs.Script.Lexing
import EmitterLogic.Proofs.Script.Code
import EmitterLogic.Proofs.Script.CodeReading
import EmitterLogic.Proofs.Session.Answers
import EmitterLogic.Proofs.Text.Search
import EmitterLogic.Proofs.Number.Unsigned
import EmitterLogic.Proofs.Formula.Leaves
import EmitterLogic.Proofs.Term.Name
import EmitterLogic.Proofs.Formula.Heights
import EmitterLogic.Proofs.Formula.Lockstep
import EmitterLogic.Proofs.Condition.NormalRule
import EmitterLogic.Proofs.Condition.Normal
import EmitterLogic.Proofs.Condition.PlainCode
import EmitterLogic.Proofs.Script.Yields
import EmitterLogic.Proofs.Formula.Operand
import EmitterLogic.Proofs.Condition.Denotation
import EmitterLogic.Proofs.Condition.ComputedCode
import EmitterLogic.Proofs.Condition.Total
import EmitterLogic.Proofs.Condition.Reread
import EmitterLogic.Proofs.Predicate.Gate
import EmitterLogic.Proofs.Predicate.Plain
import EmitterLogic.Proofs.Script.Walk
import EmitterLogic.Proofs.Script.FunctionFree
import EmitterLogic.Proofs.Predicate.Termination
import EmitterLogic.Proofs.Cache
import EmitterLogic.Proofs.Predicate.Memory
import EmitterLogic.Proofs.Session.History
import EmitterLogic.Proofs.Number.Marks
import EmitterLogic.Proofs.Script.Unreadable
import EmitterLogic.Proofs.Script.Faultless
import EmitterLogic.Proofs.Script.Memory
import EmitterLogic.Proofs.Script.Overreach
import EmitterLogic.Proofs.Script.Ends
import EmitterLogic.Proofs.Script.InRange
import EmitterLogic.Proofs.Script.Sound
import EmitterLogic.Proofs.Script.Fueled
import EmitterLogic.Proofs.Tick.Ends
import EmitterLogic.Proofs.Predicate.Members
import EmitterLogic.Proofs.Session.Ends
import EmitterLogic.Proofs.Session.Complaints
import EmitterLogic.Proofs.Script.Spelling
import EmitterLogic.Proofs.Script.GivingUp
import EmitterLogic.Proofs.Script.CallDepth
import EmitterLogic.Proofs.Script.Jumps
import EmitterLogic.Proofs.Script.Printing
import EmitterLogic.Proofs.Script.Parsing
import EmitterLogic.Proofs.Script.Phrase
import EmitterLogic.Proofs.Script.Phrases
import EmitterLogic.Proofs.Script.RoundTrip
import EmitterLogic.Proofs.Number.Magnitude
import EmitterLogic.Proofs.Number.Rounded
import EmitterLogic.Proofs.Condition.Worth
import EmitterLogic.Proofs.Preview.TickSight
import EmitterLogic.Proofs.Preview.TickGate
import EmitterLogic.Proofs.Script.Limit
import EmitterLogic.Proofs.Preview.FailedAdoption
import EmitterLogic.Proofs.Script.Passing
import EmitterLogic.Proofs.Script.Tagging.Parts
import EmitterLogic.Proofs.Script.Tagging.Expressions
import EmitterLogic.Proofs.Script.Tagging.Statements
import EmitterLogic.Proofs.Text.Shapes
import EmitterLogic.Proofs.Tick.Shapes
import EmitterLogic.Proofs.Condition.Grouped
import EmitterLogic.Proofs.Predicate.Balanced
import EmitterLogic.Proofs.Predicate.Renamed
import EmitterLogic.Proofs.Predicate.Magnitude
import EmitterLogic.Proofs.Predicate.Substituted
import EmitterLogic.Proofs.Script.Awaited
import EmitterLogic.Proofs.Script.Sites
import EmitterLogic.Proofs.Script.Returned
import EmitterLogic.Proofs.Tick.Evidence
import EmitterLogic.Proofs.Tick.Callees
import EmitterLogic.Proofs.Tick.Acceptance
import EmitterLogic.Proofs.Tick.Steady
import EmitterLogic.Proofs.Script.Stretches
import EmitterLogic.Proofs.Tick.Veiled
import EmitterLogic.Proofs.Number.Plain
import EmitterLogic.Proofs.Condition.Equality
import EmitterLogic.Proofs.Condition.Segments
import EmitterLogic.Proofs.Condition.SegmentRules
import EmitterLogic.Proofs.Condition.Line
import EmitterLogic.Proofs.Term.Readings
import EmitterLogic.Proofs.Behavior.Properties
import EmitterLogic.Proofs.Behavior.Generated
import EmitterLogic.Proofs.Preview.Death
import EmitterLogic.Proofs.Formula.Misplaced
import EmitterLogic.Proofs.Script.InStep
import EmitterLogic.Proofs.Script.Nesting
import EmitterLogic.Proofs.Script.Progress
import EmitterLogic.Proofs.Tick.Units
import EmitterLogic.Proofs.Tick.Phases
import EmitterLogic.Proofs.Tick.Replacements
import EmitterLogic.Proofs.Tick.WordMatchers
import EmitterLogic.Proofs.Tick.SignMatchers
import EmitterLogic.Proofs.Tick.Choices
import EmitterLogic.Proofs.Tick.Conditionals
import EmitterLogic.Proofs.Tick.CommentedLine
import EmitterLogic.Proofs.Tick.Trails
import EmitterLogic.Proofs.Tick.CommentedUnit
import EmitterLogic.Proofs.Tick.Annotated
import EmitterLogic.Proofs.Tick.CommentedListing
import EmitterLogic.Proofs.Tick.CommentedText
import EmitterLogic.Proofs.Tick.NotedLines
import EmitterLogic.Proofs.Tick.Comments
import EmitterLogic.Proofs.Script.Scoping
