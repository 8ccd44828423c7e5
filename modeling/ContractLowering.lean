import ContractLowering.Address
import ContractLowering.Binding
import ContractLowering.Codec.Basic
import ContractLowering.Codec.Interface
import ContractLowering.Codec.Source
import ContractLowering.Compilation
import ContractLowering.Declarations.Basic
import ContractLowering.Declarations.EnclosingModule
import ContractLowering.Declarations.Ids
import ContractLowering.Diagnostic
import ContractLowering.Expr.Basic
import ContractLowering.Expr.Compile
import ContractLowering.Expr.Expand
import ContractLowering.Expr.Lower
import ContractLowering.Expr.ResultKind
import ContractLowering.Generator
import ContractLowering.Instr
import ContractLowering.Interface.Basic
import ContractLowering.Json.Basic
import ContractLowering.Json.Numeral
import ContractLowering.Json.Printer
import ContractLowering.Json.Reader
import ContractLowering.Json.Text
import ContractLowering.Json.Token
import ContractLowering.Kind
import ContractLowering.Listing
import ContractLowering.Method.Basic
import ContractLowering.Method.Lower
import ContractLowering.Opcode
import ContractLowering.Operator
import ContractLowering.Options
import ContractLowering.Origin
import ContractLowering.Placeholder
import ContractLowering.Pool
import ContractLowering.Progress
import ContractLowering.Proofs.AbortWarnings
import ContractLowering.Proofs.AlikeRuns
import ContractLowering.Proofs.ArgumentOrder
import ContractLowering.Proofs.AssembledCode
import ContractLowering.Proofs.Bindings
import ContractLowering.Proofs.CallSequence
import ContractLowering.Proofs.EmittedCode
import ContractLowering.Proofs.Evaluation
import ContractLowering.Proofs.ExchangeRoundTrip
import ContractLowering.Proofs.ExpansionOrder
import ContractLowering.Proofs.ExportedInterface
import ContractLowering.Proofs.ExprMeaning
import ContractLowering.Proofs.FailedCompilations
import ContractLowering.Proofs.FaithfulJournal
import ContractLowering.Proofs.GenerationOrder
import ContractLowering.Proofs.InstructionText
import ContractLowering.Proofs.Interpretation
import ContractLowering.Proofs.Journal
import ContractLowering.Proofs.JsonReading
import ContractLowering.Proofs.ListingLines
import ContractLowering.Proofs.LiveMentions
import ContractLowering.Proofs.LoweringSteps
import ContractLowering.Proofs.Machine
import ContractLowering.Proofs.MethodIndependence
import ContractLowering.Proofs.MethodMeaning
import ContractLowering.Proofs.ModuleMeaning
import ContractLowering.Proofs.ModuleSteps
import ContractLowering.Proofs.Operations
import ContractLowering.Proofs.Outcomes
import ContractLowering.Proofs.ParentChains
import ContractLowering.Proofs.PlaceholderExpansion
import ContractLowering.Proofs.PlaceholderMeaning
import ContractLowering.Proofs.PoolRefinement
import ContractLowering.Proofs.PoolTenants
import ContractLowering.Proofs.PresentationChoices
import ContractLowering.Proofs.RegisterDiscipline
import ContractLowering.Proofs.RegisterLimit
import ContractLowering.Proofs.RegisterNeed
import ContractLowering.Proofs.RegisterRenaming
import ContractLowering.Proofs.ReturnCount
import ContractLowering.Proofs.Routines
import ContractLowering.Proofs.ScopeParents
import ContractLowering.Proofs.SoundSteps
import ContractLowering.Proofs.SourceAttribution
import ContractLowering.Proofs.SourceTexts
import ContractLowering.Proofs.StaleBindings
import ContractLowering.Proofs.StatementDiscipline
import ContractLowering.Proofs.StatementFootprint
import ContractLowering.Proofs.StatementSteps
import ContractLowering.Proofs.UserErrors
import ContractLowering.Proofs.VariableCoupling
import ContractLowering.Proofs.WellFormed
import ContractLowering.Register
import ContractLowering.Sha256
import ContractLowering.SourceModule.Basic
import ContractLowering.SourceModule.Compile
import ContractLowering.SourceModule.Expand
import ContractLowering.SourceModule.Warning
import ContractLowering.Stmt.Basic
import ContractLowering.Stmt.Expand
import ContractLowering.Stmt.Lower
