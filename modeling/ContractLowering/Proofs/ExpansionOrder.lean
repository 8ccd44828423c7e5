import ContractLowering.Proofs.PlaceholderExpansion
import ContractLowering.Proofs.PlaceholderMeaning

/-!
What an expansion that fails leaves behind. The nodes of a tree are worked through from the root down
and from left to right, and `fillFirst` is the tree in which the placeholders among the first so many
nodes have become literals. Expansion gets as far as the first placeholder that stands for nothing. It
reports what is wrong with that one, and from there on the tree is as it was. The expressions of a
module are worked through one after the other in the same way.
-/

namespace ContractLowering

namespace Progress

variable {α β γ ν : Type} {fault : ν → Option Failure}

/-- Work that gets as far as the first node with a fault. So many nodes leave what `upTo` tells. -/
def upToFault (fault : ν → Option Failure) : List ν → (Nat → α) → Progress α
  | [], upTo => done (upTo 0)
  | node :: nodes, upTo =>
    match fault node with
    | some e => stopped (upTo 0) e
    | none => upToFault fault nodes fun n => upTo (n + 1)

theorem upToFault_nil (upTo : Nat → α) : upToFault fault [] upTo = done (upTo 0) := rfl

theorem upToFault_cons_some {node : ν} {e : Failure} (h : fault node = some e) (nodes : List ν)
    (upTo : Nat → α) : upToFault fault (node :: nodes) upTo = stopped (upTo 0) e := by
  simp only [upToFault, h]

theorem upToFault_cons_none {node : ν} (h : fault node = none) (nodes : List ν) (upTo : Nat → α) :
    upToFault fault (node :: nodes) upTo = upToFault fault nodes fun n => upTo (n + 1) := by
  simp only [upToFault, h]

theorem map_upToFault (f : α → β) (nodes : List ν) (upTo : Nat → α) :
    (upToFault fault nodes upTo).map f = upToFault fault nodes fun n => f (upTo n) := by
  induction nodes generalizing upTo with
  | nil => rfl
  | cons node nodes ih =>
      cases h : fault node with
      | some e => rw [upToFault_cons_some h, upToFault_cons_some h]; rfl
      | none => rw [upToFault_cons_none h, upToFault_cons_none h, ih]

/-- Parts in sequence are worked on as one whole, if nothing is left to do to the first part behind
its nodes and nothing is done to the second one in front of them. -/
theorem both_upToFault (f : α → β → γ) {nodes nodes' : List ν} {upTo : Nat → α} {upTo' : Nat → β}
    {before : β} (finish : ∀ n, nodes.length ≤ n → upTo n = upTo nodes.length)
    (start : upTo' 0 = before) :
    both f (upToFault fault nodes upTo) before (upToFault fault nodes' upTo') =
      upToFault fault (nodes ++ nodes') fun n => f (upTo n) (upTo' (n - nodes.length)) := by
  induction nodes generalizing upTo with
  | nil =>
      have constant (n : Nat) : upTo n = upTo 0 := finish n (Nat.zero_le n)
      simp only [upToFault_nil, both, done, map_upToFault, List.nil_append, List.length_nil,
        Nat.sub_zero, constant]
  | cons node nodes ih =>
      cases h : fault node with
      | some e =>
          rw [upToFault_cons_some h, List.cons_append, upToFault_cons_some h, Nat.zero_sub, start]
          rfl
      | none =>
          have finish' : ∀ n, nodes.length ≤ n → upTo (n + 1) = upTo (nodes.length + 1) :=
            fun n enough => finish (n + 1) (Nat.succ_le_succ enough)
          rw [upToFault_cons_none h, List.cons_append, upToFault_cons_none h, ih finish']
          simp only [List.length_cons, Nat.add_sub_add_right]

theorem upToFault_failure_eq_none {nodes : List ν} {upTo : Nat → α} :
    (upToFault fault nodes upTo).failure = none ↔ ∀ node ∈ nodes, fault node = none := by
  induction nodes generalizing upTo with
  | nil => simp [upToFault_nil, done]
  | cons node nodes ih =>
      cases h : fault node with
      | some e => simp [upToFault_cons_some h, stopped, h]
      | none => simp [upToFault_cons_none h, ih, h]

/-- The failure is the fault of a node, no node before it has one, and it is as far as the work got. -/
theorem upToFault_stops {nodes : List ν} {upTo : Nat → α} {e : Failure}
    (failed : (upToFault fault nodes upTo).failure = some e) :
    ∃ before node after, nodes = before ++ node :: after ∧ fault node = some e ∧
      (∀ other ∈ before, fault other = none) ∧
      (upToFault fault nodes upTo).value = upTo before.length := by
  induction nodes generalizing upTo with
  | nil => cases failed
  | cons node nodes ih =>
      cases h : fault node with
      | some e' =>
          rw [upToFault_cons_some h] at failed ⊢
          cases failed
          exact ⟨[], node, nodes, rfl, h, by simp, rfl⟩
      | none =>
          rw [upToFault_cons_none h] at failed ⊢
          obtain ⟨before, other, after, rfl, fails, clean, value⟩ := ih failed
          refine ⟨node :: before, other, after, rfl, fails, ?_, value⟩
          rw [List.forall_mem_cons]
          exact ⟨h, clean⟩

end Progress

/-- Works on the members of a list in order, until so many nodes are used up. -/
def upToEach {α : Type} (nodes : α → List Expr) (upTo : Nat → α → α) : Nat → List α → List α
  | _, [] => []
  | n, a :: as => upTo n a :: upToEach nodes upTo (n - (nodes a).length) as

/-- So many nodes of a tree are worked on, and those behind them stay as they are. -/
structure Gradual {α : Type} (nodes : α → List Expr) (upTo : Nat → α → α) (a : α) : Prop where
  start : upTo 0 a = a
  finish : ∀ n, (nodes a).length ≤ n → upTo n a = upTo (nodes a).length a
  count : ∀ n, (nodes (upTo n a)).length = (nodes a).length
  rest : ∀ n, (nodes (upTo n a)).drop n = (nodes a).drop n

section Each

variable {α : Type} {nodes : α → List Expr} {upTo : Nat → α → α}

theorem upToEach_finish {as : List α} (h : ∀ a ∈ as, Gradual nodes upTo a) {n : Nat}
    (enough : (as.flatMap nodes).length ≤ n) :
    upToEach nodes upTo n as = as.map fun a => upTo (nodes a).length a := by
  induction as generalizing n with
  | nil => rfl
  | cons a as ih =>
      rw [List.forall_mem_cons] at h
      rw [List.flatMap_cons, List.length_append] at enough
      rw [upToEach, h.1.finish n (by omega), ih h.2 (by omega), List.map_cons]

/-- What holds of the members holds of the list. -/
theorem Gradual.each {as : List α} (h : ∀ a ∈ as, Gradual nodes upTo a) :
    Gradual (List.flatMap nodes) (upToEach nodes upTo) as := by
  refine ⟨?_, ?_, ?_, ?_⟩
  · induction as with
    | nil => rfl
    | cons a as ih =>
        rw [List.forall_mem_cons] at h
        rw [upToEach, h.1.start, Nat.zero_sub, ih h.2]
  · intro n enough
    rw [upToEach_finish h enough, upToEach_finish h (Nat.le_refl _)]
  · intro n
    induction as generalizing n with
    | nil => rfl
    | cons a as ih =>
        rw [List.forall_mem_cons] at h
        simp only [upToEach, List.flatMap_cons, List.length_append, h.1.count, ih h.2]
  · intro n
    induction as generalizing n with
    | nil => rfl
    | cons a as ih =>
        rw [List.forall_mem_cons] at h
        simp only [upToEach, List.flatMap_cons, List.drop_append, h.1.rest, h.1.count, ih h.2]

/-- What holds of a part holds of what it is the whole content of. -/
theorem Gradual.inside {β : Type} {a : α} (h : Gradual nodes upTo a) {f : α → β}
    {nodes' : β → List Expr} {upTo' : Nat → β → β} (same : ∀ a, nodes' (f a) = nodes a)
    (through : ∀ n, upTo' n (f a) = f (upTo n a)) : Gradual nodes' upTo' (f a) := by
  refine ⟨?_, ?_, ?_, ?_⟩
  · rw [through, h.start]
  · intro n enough
    rw [same] at enough ⊢
    rw [through, through, h.finish n enough]
  · intro n
    rw [through, same, same, h.count]
  · intro n
    rw [through, same, same, h.rest]

theorem traverse_upToFault {fault : Expr → Option Failure} {f : α → Progress α} {as : List α}
    (gradual : ∀ a ∈ as, Gradual nodes upTo a)
    (h : ∀ a ∈ as, f a = .upToFault fault (nodes a) fun n => upTo n a) :
    Progress.traverse f as =
      .upToFault fault (as.flatMap nodes) fun n => upToEach nodes upTo n as := by
  induction as with
  | nil => rfl
  | cons a as ih =>
      rw [List.forall_mem_cons] at gradual h
      have start : upToEach nodes upTo 0 as = as := (Gradual.each gradual.2).start
      rw [Progress.traverse, h.1, ih gradual.2 h.2, List.flatMap_cons,
        Progress.both_upToFault _ gradual.1.finish start]
      rfl

end Each

namespace Expr

mutual

/-- The nodes of a tree, each before its parts and these from left to right. -/
def preorder : Expr → List Expr
  | not s x => not s x :: x.preorder
  | binary s op left right => binary s op left right :: (left.preorder ++ right.preorder)
  | call s binding args => call s binding args :: allPreorder args
  | lit s value kind => [lit s value kind]
  | placeholder s name => [placeholder s name]
  | var s id => [var s id]
  | const s id => [const s id]

def allPreorder : List Expr → List Expr
  | [] => []
  | e :: es => e.preorder ++ allPreorder es

end

mutual

/-- The tree with literals for the placeholders among its first so many nodes. -/
def fillFirst (literals : Site → String → String × Kind) : Nat → Expr → Expr
  | 0, e => e
  | _ + 1, placeholder s name => lit s (literals s name).1 (literals s name).2
  | n + 1, not s x => not s (x.fillFirst literals n)
  | n + 1, binary s op left right =>
    binary s op (left.fillFirst literals n) (right.fillFirst literals (n - left.preorder.length))
  | n + 1, call s binding args => call s binding (fillFirstAll literals n args)
  | _ + 1, lit s value kind => lit s value kind
  | _ + 1, var s id => var s id
  | _ + 1, const s id => const s id

def fillFirstAll (literals : Site → String → String × Kind) : Nat → List Expr → List Expr
  | _, [] => []
  | n, e :: es => e.fillFirst literals n :: fillFirstAll literals (n - e.preorder.length) es

end

theorem allPreorder_eq_flatMap (es : List Expr) : allPreorder es = es.flatMap preorder := by
  induction es with
  | nil => rfl
  | cons e es ih => rw [allPreorder, ih, List.flatMap_cons]

/-- The nodes right below the root. -/
def parts : Expr → List Expr
  | not _ x => [x]
  | binary _ _ left right => [left, right]
  | call _ _ args => args
  | lit .. | placeholder .. | var .. | const .. => []

theorem preorder_eq (e : Expr) : e.preorder = e :: e.parts.flatMap preorder := by
  cases e <;> simp [preorder, parts, allPreorder_eq_flatMap]

theorem parts_induction {motive : Expr → Prop}
    (step : ∀ e : Expr, (∀ part ∈ e.parts, motive part) → motive e) (e : Expr) : motive e := by
  induction e with
  | not s x ih => exact step _ (by simpa [parts] using ih)
  | binary s op left right ihl ihr => exact step _ (by simp [parts, ihl, ihr])
  | call s binding args ih => exact step _ ih
  | lit _ _ _ | placeholder _ _ | var _ _ | const _ _ => exact step _ (by simp [parts])

section FillFirst

variable (literals : Site → String → String × Kind)

theorem fillFirstAll_eq_upToEach (n : Nat) (es : List Expr) :
    fillFirstAll literals n es = upToEach preorder (fillFirst literals) n es := by
  induction es generalizing n with
  | nil => rfl
  | cons e es ih => rw [fillFirstAll, ih, upToEach]

theorem fillFirst_zero (e : Expr) : e.fillFirst literals 0 = e := by
  rw [fillFirst]

theorem parts_fillFirst (n : Nat) (e : Expr) :
    (e.fillFirst literals (n + 1)).parts = upToEach preorder (fillFirst literals) n e.parts := by
  cases e with
  | call s binding args => rw [fillFirst, parts, parts, fillFirstAll_eq_upToEach]
  | not _ _ | binary _ _ _ _ | lit _ _ _ | placeholder _ _ | var _ _ | const _ _ =>
      simp only [fillFirst, parts, upToEach]

/-- What is done to a node depends on what is done to its parts. -/
theorem fillFirst_congr {e : Expr} {m n : Nat}
    (h : upToEach preorder (fillFirst literals) m e.parts =
      upToEach preorder (fillFirst literals) n e.parts) :
    e.fillFirst literals (m + 1) = e.fillFirst literals (n + 1) := by
  cases e with
  | not s x =>
      simp only [parts, upToEach, List.cons.injEq] at h
      simp only [fillFirst, h.1]
  | binary s op left right =>
      simp only [parts, upToEach, List.cons.injEq] at h
      simp only [fillFirst, h.1, h.2.1]
  | call s binding args =>
      simp only [fillFirst, fillFirstAll_eq_upToEach]
      exact congrArg _ h
  | lit _ _ _ | placeholder _ _ | var _ _ | const _ _ => simp only [fillFirst]

theorem fillFirst_gradual (e : Expr) : Gradual preorder (fillFirst literals) e := by
  induction e using parts_induction with
  | step e ih =>
      have each := Gradual.each ih
      refine ⟨fillFirst_zero literals e, ?_, ?_, ?_⟩
      · intro n enough
        rw [preorder_eq, List.length_cons] at enough ⊢
        cases n with
        | zero => omega
        | succ n => exact fillFirst_congr literals (each.finish n (by omega))
      · intro n
        cases n with
        | zero => rw [fillFirst_zero]
        | succ n =>
            rw [preorder_eq, parts_fillFirst, List.length_cons, each.count, preorder_eq e,
              List.length_cons]
      · intro n
        cases n with
        | zero => rw [fillFirst_zero]
        | succ n =>
            rw [preorder_eq, parts_fillFirst, List.drop_succ_cons, each.rest, preorder_eq e,
              List.drop_succ_cons]

end FillFirst

/-- What keeps a node from being expanded. Only a placeholder can be at fault. -/
def unresolved? (decls : Declarations) : Expr → Option Failure
  | placeholder s name =>
    match Placeholder.resolve decls s.toOrigin name s.scope with
    | .ok _ => none
    | .error e => some e
  | not .. | binary .. | call .. | lit .. | var .. | const .. => none

/-- The scope that a placeholder stands in is in the table. -/
def isPlaced (decls : Declarations) : Expr → Bool
  | placeholder s _ => decls.hasScope s.scope
  | not .. | binary .. | call .. | lit .. | var .. | const .. => true

section Unresolved

variable {decls : Declarations} {s : Site} {name : String}

theorem unresolved?_eq_some {node : Expr} {f : Failure} (h : node.unresolved? decls = some f) :
    ∃ s name, node = placeholder s name ∧
      Placeholder.resolve decls s.toOrigin name s.scope = .error f := by
  cases node with
  | placeholder s name =>
      refine ⟨s, name, rfl, ?_⟩
      rw [unresolved?] at h
      split at h
      · cases h
      · cases h
        assumption
  | not _ _ | binary _ _ _ _ | call _ _ _ | lit _ _ _ | var _ _ | const _ _ => cases h

theorem standsFor_of_resolved (parents : decls.ParentsFirst)
    (placed : (placeholder s name).isPlaced decls = true)
    (h : (placeholder s name).unresolved? decls = none) :
    Placeholder.StandsFor decls s name (Placeholder.resolved decls s name) ∧
      ¬ Placeholder.Unresolvable decls s name := by
  rw [unresolved?] at h
  rw [Placeholder.resolved]
  rcases Placeholder.resolve_cases parents placed name with
    ⟨literal, resolves, meaning⟩ | ⟨d, resolves, -⟩
  · rw [resolves]
    exact meaning
  · rw [resolves] at h
    cases h

theorem refused_of_unresolved (parents : decls.ParentsFirst)
    (placed : (placeholder s name).isPlaced decls = true) {f : Failure}
    (h : (placeholder s name).unresolved? decls = some f) :
    ∃ d, f = .reported d ∧ Placeholder.Refused decls s name d := by
  rw [unresolved?] at h
  rcases Placeholder.resolve_cases parents placed name with
    ⟨literal, resolves, -⟩ | ⟨d, resolves, refused⟩
  · rw [resolves] at h
    cases h
  · rw [resolves] at h
    cases h
    exact ⟨d, rfl, refused⟩

end Unresolved

/-- Expansion works through the nodes in order, up to the first that is at fault. -/
theorem expand_eq_upToFault (decls : Declarations) (e : Expr) :
    e.expand decls = .upToFault (unresolved? decls) e.preorder fun n =>
      e.fillFirst (Placeholder.resolved decls) n := by
  induction e with
  | not s x ih =>
      rw [expand, ih, Progress.map_upToFault, preorder, Progress.upToFault_cons_none rfl]
      simp only [fillFirst]
  | binary s op left right ihl ihr =>
      have finish := (fillFirst_gradual (Placeholder.resolved decls) left).finish
      rw [expand, ihl, ihr, Progress.both_upToFault _ finish (fillFirst_zero _ right), preorder,
        Progress.upToFault_cons_none rfl]
      simp only [fillFirst]
  | call s binding args ih =>
      rw [expand, expandAll_eq_traverse,
        traverse_upToFault (fun arg _ => fillFirst_gradual (Placeholder.resolved decls) arg) ih,
        Progress.map_upToFault, preorder, Progress.upToFault_cons_none rfl]
      simp only [fillFirst, fillFirstAll_eq_upToEach, allPreorder_eq_flatMap]
  | placeholder s name =>
      simp only [expand, literalFor, preorder, Progress.upToFault, unresolved?, fillFirst]
      cases hresolve : Placeholder.resolve decls s.toOrigin name s.scope with
      | ok literal => simp only [Except.map, Placeholder.resolved, hresolve]; rfl
      | error e => rfl
  | lit _ _ _ | var _ _ | const _ _ =>
      simp only [expand, preorder, Progress.upToFault, unresolved?, fillFirst]

end Expr

namespace Stmt

/-- The nodes of all expressions in order. -/
def preorder (s : Stmt) : List Expr := s.expressions.flatMap Expr.preorder

mutual

/-- The statement with literals for the placeholders among the first so many nodes. -/
def fillFirst (literals : Site → String → String × Kind) (n : Nat) : Stmt → Stmt
  | expr origin x => expr origin (x.fillFirst literals n)
  | assign origin target value => assign origin target (value.fillFirst literals n)
  | ret origin value => ret origin (value.map (Expr.fillFirst literals n))
  | block origin body => block origin (fillFirstAll literals n body)

def fillFirstAll (literals : Site → String → String × Kind) (n : Nat) : List Stmt → List Stmt
  | [] => []
  | s :: ss => s.fillFirst literals n :: fillFirstAll literals (n - s.preorder.length) ss

end

theorem flatMap_preorder (ss : List Stmt) :
    (allExpressions ss).flatMap Expr.preorder = ss.flatMap preorder := by
  rw [allExpressions_eq_flatMap, List.flatMap_assoc]
  rfl

section FillFirst

variable (literals : Site → String → String × Kind)

theorem fillFirstAll_eq_upToEach (n : Nat) (ss : List Stmt) :
    fillFirstAll literals n ss = upToEach preorder (fillFirst literals) n ss := by
  induction ss generalizing n with
  | nil => rfl
  | cons s ss ih => rw [fillFirstAll, ih, upToEach]

theorem fillFirst_gradual (s : Stmt) : Gradual preorder (fillFirst literals) s := by
  induction s with
  | expr origin x =>
      exact (x.fillFirst_gradual literals).inside (f := expr origin)
        (fun x => by simp [preorder, expressions]) fun n => by rw [fillFirst]
  | assign origin target value =>
      exact (value.fillFirst_gradual literals).inside (f := assign origin target)
        (fun x => by simp [preorder, expressions]) fun n => by rw [fillFirst]
  | ret origin value =>
      cases value with
      | none => exact ⟨rfl, fun _ _ => rfl, fun _ => rfl, fun _ => rfl⟩
      | some value =>
          exact (value.fillFirst_gradual literals).inside (f := fun value => ret origin (some value))
            (fun x => by simp [preorder, expressions]) fun n => by rw [fillFirst, Option.map_some]
  | block origin body ih =>
      exact (Gradual.each ih).inside (f := block origin)
        (fun body => by rw [preorder, expressions, flatMap_preorder])
        fun n => by rw [fillFirst, fillFirstAll_eq_upToEach]

end FillFirst

theorem expandAll_eq_upToFault {decls : Declarations} {ss : List Stmt}
    (ih : ∀ s ∈ ss, s.expand decls = .upToFault (Expr.unresolved? decls) s.preorder fun n =>
      s.fillFirst (Placeholder.resolved decls) n) :
    expandAll decls ss = .upToFault (Expr.unresolved? decls)
      ((allExpressions ss).flatMap Expr.preorder) fun n =>
        fillFirstAll (Placeholder.resolved decls) n ss := by
  rw [expandAll_eq_traverse, traverse_upToFault (fun s _ => fillFirst_gradual _ s) ih,
    flatMap_preorder]
  simp only [fillFirstAll_eq_upToEach]

theorem expand_eq_upToFault (decls : Declarations) (s : Stmt) :
    s.expand decls = .upToFault (Expr.unresolved? decls) s.preorder fun n =>
      s.fillFirst (Placeholder.resolved decls) n := by
  induction s with
  | expr origin x =>
      rw [expand, x.expand_eq_upToFault, Progress.map_upToFault]
      simp [preorder, expressions, fillFirst]
  | assign origin target value =>
      rw [expand, value.expand_eq_upToFault, Progress.map_upToFault]
      simp [preorder, expressions, fillFirst]
  | ret origin value =>
      cases value with
      | none => rfl
      | some value =>
          rw [expand, value.expand_eq_upToFault, Progress.map_upToFault]
          simp [preorder, expressions, fillFirst]
  | block origin body ih =>
      rw [expand, expandAll_eq_upToFault ih, Progress.map_upToFault]
      rfl

end Stmt

namespace Method

def preorder (method : Method) : List Expr := method.expressions.flatMap Expr.preorder

def fillFirst (literals : Site → String → String × Kind) (n : Nat) (method : Method) : Method :=
  { method with body := Stmt.fillFirstAll literals n method.body }

theorem fillFirst_gradual (literals : Site → String → String × Kind) (method : Method) :
    Gradual preorder (fillFirst literals) method :=
  (Gradual.each fun s _ => Stmt.fillFirst_gradual literals s).inside
    (f := fun body => { method with body }) (fun body => Stmt.flatMap_preorder body)
    fun n => by rw [fillFirst, Stmt.fillFirstAll_eq_upToEach]

theorem expand_eq_upToFault (decls : Declarations) (method : Method) :
    method.expand decls = .upToFault (Expr.unresolved? decls) method.preorder fun n =>
      method.fillFirst (Placeholder.resolved decls) n := by
  rw [expand, Stmt.expandAll_eq_upToFault fun s _ => s.expand_eq_upToFault decls,
    Progress.map_upToFault]
  rfl

end Method

namespace SourceModule

def preorder (source : SourceModule) : List Expr := source.expressions.flatMap Expr.preorder

/-- The module with literals for the placeholders among the first so many nodes. -/
def fillFirst (literals : Site → String → String × Kind) (n : Nat) (source : SourceModule) :
    SourceModule :=
  { source with methods := upToEach Method.preorder (Method.fillFirst literals) n source.methods }

theorem preorder_eq_flatMap (source : SourceModule) :
    source.preorder = source.methods.flatMap Method.preorder := by
  rw [preorder, expressions, List.flatMap_assoc]
  rfl

theorem fillFirst_gradual (literals : Site → String → String × Kind) (source : SourceModule) :
    Gradual preorder (fillFirst literals) source :=
  (Gradual.each fun method _ => Method.fillFirst_gradual literals method).inside
    (f := fun methods => { source with methods }) (fun _ => preorder_eq_flatMap _) fun _ => rfl

theorem expand_eq_upToFault (decls : Declarations) (source : SourceModule) :
    source.expand decls = .upToFault (Expr.unresolved? decls) source.preorder fun n =>
      source.fillFirst (Placeholder.resolved decls) n := by
  rw [expand, traverse_upToFault (fun method _ => Method.fillFirst_gradual _ method)
    fun method _ => method.expand_eq_upToFault decls, Progress.map_upToFault, preorder_eq_flatMap]
  rfl

end SourceModule

/-- How the expansion of a tree ends that meets these nodes in order. It fails for the first
placeholder that stands for nothing, and leaves literals in front of it and all else as it was. -/
structure StopsFirst {α : Type} (decls : Declarations) (nodes : α → List Expr)
    (fillFirst : (Site → String → String × Kind) → Nat → α → α) (a : α) (p : Progress α) : Prop where
  fails_iff : p.failure ≠ none ↔
    ∃ s name, Expr.placeholder s name ∈ nodes a ∧ Placeholder.Unresolvable decls s name
  stops : ∀ f, p.failure = some f → ∃ before s name after d literals worked,
    nodes a = before ++ Expr.placeholder s name :: after ∧
    f = .reported d ∧ Placeholder.Refused decls s name d ∧
    (∀ t other, Expr.placeholder t other ∈ before →
      Placeholder.StandsFor decls t other (literals t other)) ∧
    p.value = fillFirst literals before.length a ∧
    nodes p.value = worked ++ Expr.placeholder s name :: after ∧ worked.length = before.length

section Stops

variable {α : Type} {decls : Declarations} {nodes : α → List Expr} {a : α} {p : Progress α}

theorem Gradual.split {upTo : Nat → α → α} (h : Gradual nodes upTo a) {before rest : List Expr}
    (shape : nodes a = before ++ rest) : ∃ worked,
      nodes (upTo before.length a) = worked ++ rest ∧ worked.length = before.length := by
  refine ⟨(nodes (upTo before.length a)).take before.length, ?_, ?_⟩
  · have kept := h.rest before.length
    rw [shape, List.drop_left] at kept
    rw [← kept, List.take_append_drop]
  · rw [List.length_take, h.count, shape, List.length_append]
    omega

theorem stopsFirst_of_upToFault
    {fillFirst : (Site → String → String × Kind) → Nat → α → α} (parents : decls.ParentsFirst)
    (placed : (nodes a).all (Expr.isPlaced decls) = true)
    (gradual : ∀ literals, Gradual nodes (fillFirst literals) a)
    (run : p = .upToFault (Expr.unresolved? decls) (nodes a) fun n =>
      fillFirst (Placeholder.resolved decls) n a) : StopsFirst decls nodes fillFirst a p := by
  subst run
  rw [List.all_eq_true] at placed
  refine ⟨?_, ?_⟩
  · rw [Ne, Progress.upToFault_failure_eq_none]
    constructor
    · intro faulty
      simp only [not_forall] at faulty
      obtain ⟨node, member, fails⟩ := faulty
      obtain ⟨f, fails⟩ := Option.ne_none_iff_exists'.mp fails
      obtain ⟨s, name, rfl, -⟩ := Expr.unresolved?_eq_some fails
      obtain ⟨d, -, refused⟩ := Expr.refused_of_unresolved parents (placed _ member) fails
      exact ⟨s, name, member, Placeholder.exists_refused_iff.mp ⟨d, refused⟩⟩
    · rintro ⟨s, name, member, unresolvable⟩ clean
      exact (Expr.standsFor_of_resolved parents (placed _ member) (clean _ member)).2 unresolvable
  · intro f failed
    obtain ⟨before, node, after, shape, fails, clean, value⟩ := Progress.upToFault_stops failed
    obtain ⟨s, name, rfl, -⟩ := Expr.unresolved?_eq_some fails
    have inside : ∀ node ∈ before ++ Expr.placeholder s name :: after, node ∈ nodes a := by
      intro node member
      rwa [shape]
    obtain ⟨d, rfl, refused⟩ :=
      Expr.refused_of_unresolved parents (placed _ (inside _ (by simp))) fails
    obtain ⟨worked, left, length⟩ := (gradual (Placeholder.resolved decls)).split shape
    refine ⟨before, s, name, after, d, Placeholder.resolved decls, worked, shape, rfl, refused, ?_,
      value, value ▸ left, length⟩
    intro t other member
    have placed' := placed _ (inside _ (List.mem_append_left _ member))
    exact (Expr.standsFor_of_resolved parents placed' (clean _ member)).1

end Stops

/-- Where scopes come behind their parents and the sites of placeholders are in the table, expansion
fails if and only if some placeholder stands for nothing, and it fails for the first of these. What it
leaves has literals for the placeholders in front of it, and is untouched from there on. -/
theorem expansion_stops_first {decls : Declarations} (parents : decls.ParentsFirst) :
    (∀ e : Expr, e.preorder.all (Expr.isPlaced decls) = true →
      StopsFirst decls Expr.preorder Expr.fillFirst e (e.expand decls)) ∧
      ∀ source : SourceModule, source.preorder.all (Expr.isPlaced decls) = true →
        StopsFirst decls SourceModule.preorder SourceModule.fillFirst source
          (source.expand decls) := by
  refine ⟨?_, ?_⟩
  · intro e placed
    exact stopsFirst_of_upToFault parents placed (fun literals => e.fillFirst_gradual literals)
      (e.expand_eq_upToFault decls)
  · intro source placed
    exact stopsFirst_of_upToFault parents placed (fun literals => source.fillFirst_gradual literals)
      (source.expand_eq_upToFault decls)

namespace Coin

/-- A placeholder outside of all modules, and one behind it that could be replaced. -/
def stray : Expr :=
  .binary (site 12) .add (.placeholder ⟨⟨⟨13⟩, 4⟩, .root⟩ "$THIS_SYMBOL")
    (.placeholder (site 14) "THIS_SYMBOL")

def interrupted : SourceModule := source (.placeholder (site 10) "$$THIS_ADDRESS") stray

def left : SourceModule := source (.lit (site 10) (Address.literal "coin") .address) stray

end Coin

open Coin in
theorem expansion_stops_first_stray :
    decls.ParentsFirst ∧
      interrupted.preorder.all (Expr.isPlaced decls) = true ∧
      (interrupted.expand decls).failure =
        some (.reported (.placeholderOutsideModule ⟨⟨13⟩, 4⟩ "$THIS_SYMBOL")) ∧
      (interrupted.expand decls).value = left ∧
      ∃ before s after literals, s.toOrigin = ⟨⟨13⟩, 4⟩ ∧
        interrupted.preorder = before ++ .placeholder s "$THIS_SYMBOL" :: after ∧
        left = interrupted.fillFirst literals before.length := by
  have parents : decls.ParentsFirst := by decide
  have placed : interrupted.preorder.all (Expr.isPlaced decls) = true := rfl
  have fails : (interrupted.expand decls).failure =
      some (.reported (.placeholderOutsideModule ⟨⟨13⟩, 4⟩ "$THIS_SYMBOL")) := rfl
  have value : (interrupted.expand decls).value = left := rfl
  refine ⟨parents, placed, fails, value, ?_⟩
  obtain ⟨before, ⟨origin, scope⟩, name, after, d, literals, worked, shape, reported, refused, -,
    filled, -⟩ := ((expansion_stops_first parents).2 interrupted placed).stops _ fails
  cases reported
  cases refused with
  | outside => exact ⟨before, _, after, literals, rfl, shape, value ▸ filled⟩

end ContractLowering
