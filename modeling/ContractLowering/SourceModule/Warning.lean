import ContractLowering.Expr.Lower
import ContractLowering.SourceModule.Basic

/-!
Warnings about calls that are bound to methods without an implementation. Such a call compiles,
to code that gives up.
-/

namespace ContractLowering

structure Warning where
  line : Nat
  binding : Binding
deriving DecidableEq, Repr

def Warning.text (w : Warning) : String :=
  "line " ++ w.line.repr ++ ": " ++ w.binding.notImplemented ++ " and will abort when called"

namespace Expr

mutual

/-- The warning about a call comes before those about its arguments. -/
def warnings : Expr → List Warning
  | not _ x => x.warnings
  | binary _ _ l r => l.warnings ++ r.warnings
  | call s binding args =>
    (if binding.implementation = .missing then [⟨s.line, binding⟩] else []) ++ allWarnings args
  | lit .. | placeholder .. | var .. | const .. => []

def allWarnings : List Expr → List Warning
  | [] => []
  | e :: es => e.warnings ++ allWarnings es

end

end Expr

def SourceModule.warnings (source : SourceModule) : List Warning :=
  Expr.allWarnings source.expressions

end ContractLowering
