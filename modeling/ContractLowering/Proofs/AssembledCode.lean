import ContractLowering.Proofs.EmittedCode
import ContractLowering.Proofs.ExpansionOrder
import ContractLowering.Proofs.StatementDiscipline

/-!
What the code of a module is put together from: the own code of each node, and instructions between
the nodes that only move values from one register to another, to the stack or back, or return. The
nodes come in the order of the source text, and their code in the order of the computation. A
property of code that holds of these parts and of whatever is put together from them holds of all
code that lowering emits.
-/

namespace ContractLowering

open Generator

/-- The instruction moves a value or returns, and mentions nothing but registers. -/
def Instr.isMove (instr : Instr) : Bool :=
  [Opcode.copy, .push, .pop, .ret].contains instr.opcode &&
    instr.operands.all fun operand => operand.register?.isSome

/-- The instructions that are emitted for the node itself, behind those of its parts. -/
inductive Expr.Own (consts : List Constant) : Expr → List Instr → Prop
  | not {s : Site} {x : Expr} {reg : Register} :
      Own consts (.not s x) (instrs s.toOrigin [(.not, [.reg reg, .reg reg])])
  | binary {s : Site} {op : Operator} {opcode : Opcode} {left right : Expr} {l r reg : Register}
      (supported : op.opcode? = some opcode) :
      Own consts (.binary s op left right)
        (instrs s.toOrigin [(opcode, [.reg l, .reg r, .reg reg])])
  | call {s : Site} {binding : Binding} {args : List Expr} {reg : Register} :
      Own consts (.call s binding args) (instrs s.toOrigin (binding.callCode reg))
  | lit {s : Site} {value : String} {kind : Kind} {reg : Register} :
      Own consts (.lit s value kind) (instrs s.toOrigin (kind.literalCode value reg))
  | var {s : Site} {id : VarId} {source reg : Register} :
      Own consts (.var s id) (instrs s.toOrigin [(.copy, [.reg source, .reg reg])])
  | const {s : Site} {id : ConstId} {c : Constant} {reg : Register}
      (declared : consts[id.index]? = some c) :
      Own consts (.const s id) (instrs s.toOrigin [(.load, [.reg reg, c.kind.constant c.value])])

/-- The code is made of moves and of the own code of these nodes. -/
inductive Assembled (consts : List Constant) : List Instr → List Expr → Prop
  | nil : Assembled consts [] []
  | own {e : Expr} {code : List Instr} (h : e.Own consts code) : Assembled consts code [e]
  | move {instr : Instr} (h : instr.isMove = true) : Assembled consts [instr] []
  | append {code code' : List Instr} {nodes nodes' : List Expr} (h : Assembled consts code nodes)
      (h' : Assembled consts code' nodes') : Assembled consts (code ++ code') (nodes ++ nodes')
  | perm {code : List Instr} {nodes nodes' : List Expr} (h : Assembled consts code nodes)
      (same : nodes.Perm nodes') : Assembled consts code nodes'

namespace Assembled

variable {consts : List Constant} {code own : List Instr} {nodes : List Expr}

theorem moved (h : Assembled consts code nodes) (instr : Instr) (move : instr.isMove = true) :
    Assembled consts (code ++ [instr]) nodes := by
  simpa using h.append (.move move)

/-- The own code of a node stands behind that of its parts, and the node in front of them. -/
theorem behind (h : Assembled consts code nodes) {e : Expr} (hown : e.Own consts own) :
    Assembled consts (code ++ own) (e :: nodes) :=
  (h.append (.own hown)).perm (List.perm_append_singleton e nodes)

end Assembled

namespace Expr

variable {decls : Declarations} {reg : Register} {code : List Instr}

/-- Arguments are computed last to first, and pushed. -/
theorem Argument.assembled {consts : List Constant} {args : List Argument}
    (ih : ∀ arg ∈ args, Assembled consts arg.code arg.expr.preorder) :
    Assembled consts (args.reverse.flatMap Argument.passing)
      ((args.map Argument.expr).flatMap preorder) := by
  induction args with
  | nil => exact .nil
  | cons arg args ihargs =>
      rw [List.forall_mem_cons] at ih
      have passed : Assembled consts arg.passing arg.expr.preorder := ih.1.moved _ rfl
      rw [List.reverse_cons, List.flatMap_append, List.flatMap_singleton, List.map_cons,
        List.flatMap_cons]
      exact ((ihargs ih.2).append passed).perm List.perm_append_comm

theorem Yields.assembled {e : Expr} (h : e.Yields decls reg code) :
    Assembled decls.consts code e.preorder := by
  induction h with
  | not operand ih => exact ih.behind .not
  | binary supported before behind ihl ihr => exact (ihl.append ihr).behind (.binary supported)
  | call each ih =>
      rw [preorder, allPreorder_eq_flatMap]
      exact (Argument.assembled ih).behind .call
  | lit => exact .own .lit
  | var bound => exact .own .var
  | const declared => exact .own (.const (getElem?_of_getConstant declared))

theorem lower_assembled (e : Expr) {gen gen' : Generator} (h : e.lower decls gen = .ok reg gen') :
    ∃ code, gen'.code = gen.code ++ code ∧ Assembled decls.consts code e.preorder := by
  obtain ⟨code, hcode, yields⟩ := lower_yields e h
  exact ⟨code, hcode, yields.assembled⟩

end Expr

namespace Stmt

open Compilation

variable {c c' : Compilation}

theorem lowerAll_assembled {ss : List Stmt}
    (ih : ∀ s ∈ ss, ∀ c c', s.lower c = .ok () c' →
      ∃ code, c'.gen.code = c.gen.code ++ code ∧ Assembled c.decls.consts code s.preorder)
    (h : lowerAll ss c = .ok () c') :
    ∃ code, c'.gen.code = c.gen.code ++ code ∧
      Assembled c.decls.consts code (ss.flatMap preorder) := by
  induction ss generalizing c with
  | nil =>
      simp only [lowerAll] at h
      cases h
      exact ⟨[], by simp, .nil⟩
  | cons s ss ihss =>
      obtain ⟨c₁, hs, hss⟩ := lowerAll_cons_ok h
      obtain ⟨new, binds⟩ := s.lower_binds hs
      obtain ⟨first, hfirst, assembled⟩ := ih s List.mem_cons_self c c₁ hs
      obtain ⟨rest, hrest, others⟩ := ihss (fun t ht => ih t (List.mem_cons_of_mem _ ht)) hss
      -- the constants are those that the first statement found
      rw [Declarations.consts_of_cleared_eq binds.cleared] at others
      exact ⟨first ++ rest, by rw [hrest, hfirst, List.append_assoc], assembled.append others⟩

theorem lower_assembled (s : Stmt) (h : s.lower c = .ok () c') :
    ∃ code, c'.gen.code = c.gen.code ++ code ∧ Assembled c.decls.consts code s.preorder := by
  induction s generalizing c c' with
  | expr origin x =>
      obtain ⟨reg, g, hx, rfl⟩ := lower_expr_ok h
      obtain ⟨code, hcode, assembled⟩ := x.lower_assembled hx
      exact ⟨code, hcode, by simpa [preorder, expressions] using assembled⟩
  | assign origin target value =>
      obtain ⟨reg, g, dest, c₁, hvalue, htarget, rfl⟩ := lower_assign_ok h
      obtain ⟨code, hcode, assembled⟩ := value.lower_assembled hvalue
      have kept : c₁.gen.code = g.code := targetRegister_code htarget
      refine ⟨code ++ [⟨.copy, [.reg reg, .reg dest], origin⟩], by simp [kept, hcode], ?_⟩
      simpa [preorder, expressions] using assembled.moved _ rfl
  | ret origin value =>
      cases value with
      | none =>
          rw [lower_ret_none_ok h]
          exact ⟨_, rfl, .move rfl⟩
      | some value =>
          obtain ⟨reg, g, hvalue, rfl⟩ := lower_ret_some_ok h
          obtain ⟨code, hcode, assembled⟩ := value.lower_assembled hvalue
          refine ⟨code ++ [⟨.push, [.reg reg], origin⟩] ++ [⟨.ret, [], origin⟩],
            by simp [hcode], ?_⟩
          have pushed := assembled.moved ⟨.push, [.reg reg], origin⟩ rfl
          simpa [preorder, expressions] using pushed.moved _ rfl
  | block origin body ih =>
      simp only [lower] at h
      rw [preorder, expressions, flatMap_preorder]
      exact lowerAll_assembled (fun s hs c c' => ih s hs) h

end Stmt

namespace Method

open Compilation

variable {c c' : Compilation}

theorem lowerParams_assembled (consts : List Constant) {origin : Origin} {ids : List VarId}
    (h : lowerParams origin ids c = .ok () c') :
    ∃ code, c'.gen.code = c.gen.code ++ code ∧ Assembled consts code [] := by
  induction ids generalizing c with
  | nil =>
      simp only [lowerParams] at h
      cases h
      exact ⟨[], by simp, .nil⟩
  | cons id ids ih =>
      obtain ⟨reg, decls, tenant, -, -, h⟩ := lowerParams_cons_ok h
      obtain ⟨code, hcode, assembled⟩ := ih h
      have popped : Assembled consts [⟨.pop, [.reg reg], origin⟩] [] := .move rfl
      exact ⟨_, by simp [hcode], popped.append assembled⟩

theorem closing_assembled (consts : List Constant) (method : Method) :
    Assembled consts method.closing [] := by
  rw [closing]
  split
  · exact .move rfl
  · exact .nil

theorem lower_assembled {method : Method} {described : ExportedMethod}
    (h : method.lower c = .ok described c') :
    ∃ code, c'.gen.code = c.gen.code ++ code ∧ Assembled c.decls.consts code method.preorder := by
  obtain ⟨c₁, c₂, hparams, hbody, -, -, -, rfl⟩ := lower_ok h
  obtain ⟨new, binds⟩ := lowerParams_binds hparams
  obtain ⟨popped, hpopped, entered⟩ := lowerParams_assembled c.decls.consts hparams
  obtain ⟨body, hcode, ran⟩ := Stmt.lowerAll_assembled (fun s _ _ _ => s.lower_assembled) hbody
  rw [Declarations.consts_of_cleared_eq binds.cleared] at ran
  refine ⟨popped ++ body ++ method.closing, by simp [foldl_drop_code, hcode, hpopped], ?_⟩
  rw [preorder, expressions, Stmt.flatMap_preorder]
  simpa using (entered.append ran).append (method.closing_assembled c.decls.consts)

end Method

namespace SourceModule

/-- Methods are taken one after the other, exported or not. -/
theorem lowerMethods_assembled {methods : List Method} {described : List ExportedMethod}
    {c c' : Compilation} (h : lowerMethods methods c = .ok described c') :
    ∃ code, c'.gen.code = c.gen.code ++ code ∧
      Assembled c.decls.consts code (methods.flatMap Method.preorder) := by
  induction methods generalizing c described with
  | nil =>
      simp only [lowerMethods] at h
      cases h
      exact ⟨[], by simp, .nil⟩
  | cons method methods ih =>
      obtain ⟨first, c₁, others, hfirst, hothers, -⟩ := lowerMethods_cons_ok h
      obtain ⟨code, hcode, assembled⟩ := Method.lower_assembled hfirst
      obtain ⟨rest, hrest, following⟩ := ih hothers
      rw [Declarations.consts_of_cleared_eq (Method.lower_cleared hfirst)] at following
      exact ⟨code ++ rest, by rw [hrest, hcode, List.append_assoc], assembled.append following⟩

end SourceModule
end ContractLowering
