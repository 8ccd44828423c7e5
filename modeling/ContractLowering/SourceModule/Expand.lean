import ContractLowering.SourceModule.Basic
import ContractLowering.Stmt.Expand

/-!
Replacing placeholders in methods and modules, in the order of the source text. Only expressions
change.
-/

namespace ContractLowering

def Method.expand (decls : Declarations) (method : Method) : Progress Method :=
  (Stmt.expandAll decls method.body).map fun body => { method with body }

def SourceModule.expand (decls : Declarations) (source : SourceModule) : Progress SourceModule :=
  (Progress.traverse (Method.expand decls) source.methods).map fun methods =>
    { source with methods }

end ContractLowering
