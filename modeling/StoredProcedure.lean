import StoredProcedure.Analysis.Action
import StoredProcedure.Analysis.Lock
import StoredProcedure.Analysis.Program
import StoredProcedure.Analysis.Summary
import StoredProcedure.Bundle
import StoredProcedure.Code.Expr
import StoredProcedure.Code.Statement
import StoredProcedure.Code.Store
import StoredProcedure.Command.Folder
import StoredProcedure.Command.Log
import StoredProcedure.Command.Run
import StoredProcedure.Digest.Procedure
import StoredProcedure.Digest.Sha256
import StoredProcedure.Double.Basic
import StoredProcedure.Double.Shortest
import StoredProcedure.Fault
import StoredProcedure.Instruction.Basic
import StoredProcedure.Instruction.Reader
import StoredProcedure.Instruction.Writer
import StoredProcedure.Json.Basic
import StoredProcedure.Json.Document
import StoredProcedure.Json.Printer
import StoredProcedure.Json.Token
import StoredProcedure.Lowering
import StoredProcedure.Main
import StoredProcedure.NameMap
import StoredProcedure.NameSet
import StoredProcedure.Proofs.CodeRun
import StoredProcedure.Proofs.CodeScope
import StoredProcedure.Proofs.Evaluation
import StoredProcedure.Proofs.ExprSimulation
import StoredProcedure.Proofs.Machine
import StoredProcedure.Proofs.Result
import StoredProcedure.Proofs.Scope
import StoredProcedure.Proofs.Value
import StoredProcedure.Report.Diagnostic
import StoredProcedure.Report.Lock
import StoredProcedure.Rewriter
import StoredProcedure.Scope
import StoredProcedure.Syntax.Choice
import StoredProcedure.Syntax.Expr
import StoredProcedure.Syntax.Fields
import StoredProcedure.Syntax.Kind
import StoredProcedure.Syntax.Program
import StoredProcedure.Syntax.Reader
import StoredProcedure.Syntax.Source
import StoredProcedure.Syntax.Statement
import StoredProcedure.Syntax.Writer
import StoredProcedure.Text.Printable
import StoredProcedure.Text.Quoted
import StoredProcedure.Proofs.StatementSimulation
import StoredProcedure.Proofs.FunctionSimulation
import StoredProcedure.Proofs.ControlFlow
import StoredProcedure.Proofs.HeapFlow
import StoredProcedure.Proofs.HeapLayout
import StoredProcedure.Proofs.Dependence
import StoredProcedure.Proofs.Track
import StoredProcedure.Proofs.Walk
import StoredProcedure.Proofs.LoopDependence
import StoredProcedure.Proofs.Course
import StoredProcedure.Proofs.Sweep
import StoredProcedure.Proofs.BranchDependence
import StoredProcedure.Proofs.Choice
import StoredProcedure.Proofs.StoreAccess
import StoredProcedure.Proofs.Tree
import StoredProcedure.Proofs.ExprAcceptance
import StoredProcedure.Proofs.Acceptance
import StoredProcedure.Proofs.Traversal
import StoredProcedure.Proofs.Rewriting
import StoredProcedure.Proofs.LoweringStep
import StoredProcedure.Proofs.LoweringAcceptance
import StoredProcedure.Proofs.LoweredForm
import StoredProcedure.Proofs.LockNeed
import StoredProcedure.Proofs.ClosedWorld
import StoredProcedure.Proofs.StackFlow
import StoredProcedure.Proofs.StackLayout
import StoredProcedure.Proofs.ByteOrder
import StoredProcedure.Proofs.Faults
import StoredProcedure.Proofs.Staging
import StoredProcedure.Proofs.Alike
import StoredProcedure.Proofs.AlikeCode
import StoredProcedure.Proofs.AlikeSummary
import StoredProcedure.Proofs.DistinctNames
import StoredProcedure.Proofs.Rounding
import StoredProcedure.Proofs.ShortestDecimal
import StoredProcedure.Proofs.JsonLexing
import StoredProcedure.Proofs.JsonNumber
import StoredProcedure.Proofs.JsonReading
import StoredProcedure.Proofs.Records
import StoredProcedure.Proofs.SyntaxReading
import StoredProcedure.Proofs.ProgramReading
import StoredProcedure.Proofs.InstructionReading
import StoredProcedure.Proofs.Visits
import StoredProcedure.Proofs.Behaviour
import StoredProcedure.Proofs.Branching
import StoredProcedure.Proofs.StoreFlow
import StoredProcedure.Proofs.StackFrame
import StoredProcedure.Proofs.DottedPath
import StoredProcedure.Proofs.NestedPath
import StoredProcedure.Proofs.SlotTable
import StoredProcedure.Proofs.Emission
import StoredProcedure.Proofs.Inspection
import StoredProcedure.Proofs.Label
import StoredProcedure.Proofs.Renaming
import StoredProcedure.Proofs.ChoiceShape
import StoredProcedure.Proofs.EvaluationOrder
import StoredProcedure.Proofs.LockAdvice
import StoredProcedure.Proofs.Respelling
import StoredProcedure.Proofs.FieldAgreement
import StoredProcedure.Proofs.RespelledNode
import StoredProcedure.Proofs.RespelledDocument
import StoredProcedure.Proofs.RespelledProgram
import StoredProcedure.Proofs.ReportOrder
