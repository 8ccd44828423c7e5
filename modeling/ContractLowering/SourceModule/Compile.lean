import ContractLowering.Listing
import ContractLowering.Method.Lower
import ContractLowering.Options
import ContractLowering.SourceModule.Expand
import ContractLowering.SourceModule.Warning

/-!
Compiling modules: placeholders are replaced first, then code is generated for one method after
the other, and at last the exported interface is brought in line with the standard that applies.
-/

namespace ContractLowering

structure Compiled where
  code : List Instr
  interface : Interface
  warnings : List Warning
  peak : Nat
  sourceMap : Bool
deriving DecidableEq, Repr

def Compiled.listing (compiled : Compiled) : String :=
  Listing.render compiled.sourceMap compiled.code

namespace SourceModule

/-- Lowers all methods, and describes those that are exported. -/
def lowerMethods : List Method → CompileM (List ExportedMethod)
  | [] => return []
  | method :: methods => do
    let described ← method.lower
    let others ← lowerMethods methods
    return if method.exported then described :: others else others

/-- The standard that applies to a module. One that the options give spares the look-up. -/
def standard? (source : SourceModule) (options : Options) (decls : Declarations) :
    Except Failure (Option Standard) :=
  match options.standard with
  | some standard => .ok (some standard)
  | none =>
    (decls.enclosingModule source.scope).map fun info =>
      info.bind fun info => Standard.ofModuleKind? info.kind

/-- What a module compiles to once its placeholders are replaced. -/
def lower (source : SourceModule) (options : Options) : CompileM Compiled := do
  let methods ← lowerMethods source.methods
  let standard ← MonadExcept.ofExcept (source.standard? options (← get).decls)
  let interface : Interface := ⟨methods, source.events⟩
  let gen := (← get).gen
  return {
    code := gen.code
    interface := standard.elim interface interface.applyStandard
    warnings := source.warnings
    peak := gen.pool.peak
    sourceMap := options.sourceMap }

/-- Compiles a module with a generator of its own. Variables that were bound before a failure
stay bound. -/
def compile (source : SourceModule) (options : Options) :
    EStateM Failure Declarations Compiled := fun decls =>
  match (source.expand decls).result with
  | .error e => .error e decls
  | .ok source =>
    match source.lower options ⟨decls, options.generator⟩ with
    | .ok compiled c => .ok compiled c.decls
    | .error e c => .error e c.decls

end SourceModule
end ContractLowering
