import ContractLowering.Expr.ResultKind
import ContractLowering.Proofs.GenerationOrder

/-!
Expansion replaces placeholders and nothing else. An expression that expands is the same tree with
literals filled in: `fill` puts a literal on the site of each placeholder, and what it leaves has the
same numbers, the same kind unless that was unknown, and no placeholder left to replace. Statements,
methods and modules are expanded by expanding their expressions: `mapExprs` changes these at every
depth and keeps all the rest.
-/

namespace ContractLowering

theorem Progress.traverse_done {α : Type} {f : α → Progress α} {as : List α}
    (h : ∀ a ∈ as, f a = .done a) : traverse f as = .done as := by
  induction as with
  | nil => rfl
  | cons a as ih =>
      rw [traverse, h a List.mem_cons_self, ih fun b hb => h b (List.mem_cons_of_mem _ hb)]
      rfl

/-- The literal for a placeholder at a site, where there is one. -/
def Placeholder.resolved (decls : Declarations) (s : Site) (name : String) : String × Kind :=
  (resolve decls s.toOrigin name s.scope).toOption.getD ("", .unknown)

namespace Expr

mutual

/-- The tree with a literal on the site of each placeholder. -/
def fill (literals : Site → String → String × Kind) : Expr → Expr
  | placeholder s name => lit s (literals s name).1 (literals s name).2
  | not s x => not s (x.fill literals)
  | binary s op left right => binary s op (left.fill literals) (right.fill literals)
  | call s binding args => call s binding (fillAll literals args)
  | lit s value kind => lit s value kind
  | var s id => var s id
  | const s id => const s id

def fillAll (literals : Site → String → String × Kind) : List Expr → List Expr
  | [] => []
  | e :: es => e.fill literals :: fillAll literals es

end

theorem fillAll_eq_map (literals : Site → String → String × Kind) (es : List Expr) :
    fillAll literals es = es.map (fill literals) := by
  induction es with
  | nil => rfl
  | cons e es ih => rw [fillAll, ih, List.map_cons]

theorem anyHasPlaceholder_eq : ∀ es, anyHasPlaceholder es = es.any hasPlaceholder :=
  eq_any_of_equations rfl fun _ _ => rfl

theorem hasPlaceholder_iff (e : Expr) :
    e.hasPlaceholder = true ↔ ∃ s name, placeholder s name ∈ e.nodes := by
  induction e with
  | not s x ih => simp [hasPlaceholder, nodes, ih]
  | binary s op left right ihl ihr => simp [hasPlaceholder, nodes, ihl, ihr, exists_or]
  | call s binding args ih =>
      simp only [hasPlaceholder, anyHasPlaceholder_eq, List.any_eq_true, nodes, List.mem_cons,
        reduceCtorEq, false_or, mem_argNodes]
      constructor
      · rintro ⟨arg, harg, has⟩
        obtain ⟨t, name, hnode⟩ := (ih arg harg).mp has
        exact ⟨t, name, arg, harg, hnode⟩
      · rintro ⟨t, name, arg, harg, hnode⟩
        exact ⟨arg, harg, (ih arg harg).mpr ⟨t, name, hnode⟩⟩
  | placeholder s name => simp [hasPlaceholder, nodes]
  | lit _ _ _ | var _ _ | const _ _ => simp [hasPlaceholder, nodes]

section Fill

variable (literals : Site → String → String × Kind)

theorem fill_hasPlaceholder (e : Expr) : (e.fill literals).hasPlaceholder = false := by
  induction e with
  | not s x ih => simpa only [fill, hasPlaceholder] using ih
  | binary s op left right ihl ihr => simp only [fill, hasPlaceholder, ihl, ihr, Bool.or_self]
  | call s binding args ih =>
      simp only [fill, hasPlaceholder, anyHasPlaceholder_eq, fillAll_eq_map, List.any_map,
        List.any_eq_false, Function.comp_apply, Bool.not_eq_true]
      exact ih
  | lit _ _ _ | placeholder _ _ | var _ _ | const _ _ => rfl

theorem fill_contains (id : NodeId) (e : Expr) :
    (e.fill literals).contains id = e.contains id := by
  induction e with
  | not s x ih => simp only [fill, contains, ih]
  | binary s op left right ihl ihr => simp only [fill, contains, ihl, ihr]
  | call s binding args ih =>
      simp only [fill, contains, anyContains_eq, fillAll_eq_map, List.any_map]
      congr 1
      rw [Bool.eq_iff_iff]
      simp only [List.any_eq_true, Function.comp_apply]
      exact exists_congr fun arg => and_congr_right fun harg => by rw [ih arg harg]
  | lit _ _ _ | placeholder _ _ | var _ _ | const _ _ => rfl

/-- Only along the left operands of arithmetic operators does a placeholder decide the kind. -/
theorem fill_resultKind (decls : Declarations) (e : Expr)
    (known : e.resultKind decls ≠ .ok .unknown) :
    (e.fill literals).resultKind decls = e.resultKind decls := by
  induction e with
  | binary s op left right ihl _ =>
      simp only [fill, resultKind] at known ⊢
      split
      · rfl
      · rename_i arithmetic
        rw [if_neg arithmetic] at known
        exact ihl known
  | placeholder s name => exact absurd rfl known
  | not _ _ | call _ _ _ | lit _ _ _ | var _ _ | const _ _ => rfl

end Fill

section Expand

variable {decls : Declarations}

/-- Where there is nothing to replace, expansion goes through and changes nothing. -/
theorem expand_of_expanded (e : Expr) (h : e.hasPlaceholder = false) :
    e.expand decls = .done e := by
  induction e with
  | not s x ih =>
      simp only [expand, ih h]
      rfl
  | binary s op left right ihl ihr =>
      simp only [hasPlaceholder, Bool.or_eq_false_iff] at h
      simp only [expand, ihl h.1, ihr h.2]
      rfl
  | call s binding args ih =>
      simp only [hasPlaceholder, anyHasPlaceholder_eq, List.any_eq_false, Bool.not_eq_true] at h
      simp only [expand, expandAll_eq_traverse]
      rw [Progress.traverse_done fun arg harg => ih arg harg (h arg harg)]
      rfl
  | placeholder s name => cases h
  | lit _ _ _ | var _ _ | const _ _ => rfl

/-- An expression that expands has literals for all its placeholders, and is filled in with them. -/
theorem expand_fills (e : Expr) (h : (e.expand decls).failure = none) :
    (e.expand decls).value = e.fill (Placeholder.resolved decls) ∧
      ∀ s name, placeholder s name ∈ e.nodes → Placeholder.resolve decls s.toOrigin name s.scope =
        .ok (Placeholder.resolved decls s name) := by
  induction e with
  | not s x ih =>
      obtain ⟨value, resolves⟩ := ih h
      refine ⟨?_, ?_⟩
      · simp only [expand, fill, Progress.map, value]
      · intro t name hnode
        exact resolves t name (by simpa [nodes] using hnode)
  | binary s op left right ihl ihr =>
      simp only [expand, Progress.both_failure, Option.or_eq_none_iff] at h
      obtain ⟨valuel, resolvesl⟩ := ihl h.1
      obtain ⟨valuer, resolvesr⟩ := ihr h.2
      refine ⟨?_, ?_⟩
      · simp only [expand, fill]
        rw [Progress.both_value _ _ _ h.1, valuel, valuer]
      · intro t name hnode
        have inside : placeholder t name ∈ left.nodes ∨ placeholder t name ∈ right.nodes := by
          simpa [nodes] using hnode
        exact inside.elim (resolvesl t name) (resolvesr t name)
  | call s binding args ih =>
      simp only [expand, expandAll_eq_traverse, Progress.map] at h
      have expands := Progress.traverse_failure_eq_none.mp h
      refine ⟨?_, ?_⟩
      · simp only [expand, expandAll_eq_traverse, Progress.map, fill, fillAll_eq_map]
        rw [Progress.traverse_value _ expands]
        exact congrArg _ (List.map_congr_left fun arg harg => (ih arg harg (expands arg harg)).1)
      · intro t name hnode
        obtain ⟨arg, harg, inside⟩ : ∃ arg ∈ args, placeholder t name ∈ arg.nodes := by
          simpa [nodes, mem_argNodes] using hnode
        exact (ih arg harg (expands arg harg)).2 t name inside
  | placeholder s name =>
      simp only [expand, literalFor] at h ⊢
      cases hresolve : Placeholder.resolve decls s.toOrigin name s.scope with
      | error e =>
          rw [hresolve] at h
          cases h
      | ok literal =>
          have found : Placeholder.resolved decls s name = literal := by
            rw [Placeholder.resolved, hresolve]
            rfl
          refine ⟨?_, ?_⟩
          · rw [fill, found]
            rfl
          · intro t other hnode
            obtain ⟨rfl, rfl⟩ : t = s ∧ other = name := by simpa [nodes] using hnode
            rw [hresolve, found]
  | lit _ _ _ | var _ _ | const _ _ =>
      refine ⟨rfl, fun t name hnode => ?_⟩
      simp [nodes] at hnode

/-- What expansion makes of an expression: the same tree, in which each placeholder has become the
literal that it stands for, on the site that it had. -/
structure Expands (decls : Declarations) (e e' : Expr) : Prop where
  complete : e'.hasPlaceholder = false
  noneLeft : ∀ s name, placeholder s name ∉ e'.nodes
  filled : ∃ literals : Site → String → String × Kind, e' = e.fill literals ∧
    ∀ s name, placeholder s name ∈ e.nodes →
      Placeholder.resolve decls s.toOrigin name s.scope = .ok (literals s name)
  contains : ∀ id, e'.contains id = e.contains id
  resultKind : ∀ table, e.resultKind table ≠ .ok .unknown →
    e'.resultKind table = e.resultKind table
  again : (e'.expand decls).result = .ok e'

theorem expand_expands (e : Expr) (h : (e.expand decls).failure = none) :
    e.Expands decls (e.expand decls).value := by
  obtain ⟨value, resolves⟩ := e.expand_fills h
  have complete := e.fill_hasPlaceholder (Placeholder.resolved decls)
  rw [value]
  refine ⟨complete, ?_, ⟨_, rfl, resolves⟩, fun id => e.fill_contains _ id,
    fun table => e.fill_resultKind _ table, ?_⟩
  · intro s name hnode
    exact absurd ((hasPlaceholder_iff _).mpr ⟨s, name, hnode⟩) (by simp [complete])
  · rw [expand_of_expanded _ complete]
    rfl

end Expand
end Expr

theorem map_eq_self {α : Type} {f : α → α} {as : List α} (h : ∀ a ∈ as, f a = a) :
    as.map f = as :=
  (List.map_congr_left h).trans (List.map_id as)

/-- To search a list is to search what each of its members stands for. -/
theorem findSome?_eq_flatMap {α β γ : Type} {f : α → Option γ} {g : α → List β}
    {p : β → Option γ} {as : List α} (h : ∀ a ∈ as, f a = (g a).findSome? p) :
    as.findSome? f = (as.flatMap g).findSome? p := by
  induction as with
  | nil => rfl
  | cons a as ih =>
      rw [List.flatMap_cons, List.findSome?_append, List.findSome?_cons, h a List.mem_cons_self,
        ih fun b hb => h b (List.mem_cons_of_mem _ hb)]
      cases (g a).findSome? p <;> rfl

namespace Stmt

mutual

/-- The statement with its expressions changed, at any depth. -/
def mapExprs (f : Expr → Expr) : Stmt → Stmt
  | expr origin x => expr origin (f x)
  | assign origin target value => assign origin target (f value)
  | ret origin value => ret origin (value.map f)
  | block origin body => block origin (mapAllExprs f body)

def mapAllExprs (f : Expr → Expr) : List Stmt → List Stmt
  | [] => []
  | s :: ss => s.mapExprs f :: mapAllExprs f ss

end

theorem mapAllExprs_eq_map (f : Expr → Expr) (ss : List Stmt) :
    mapAllExprs f ss = ss.map (mapExprs f) := by
  induction ss with
  | nil => rfl
  | cons s ss ih => rw [mapAllExprs, ih, List.map_cons]

theorem allExpressions_eq_flatMap (ss : List Stmt) :
    allExpressions ss = ss.flatMap expressions := by
  induction ss with
  | nil => rfl
  | cons s ss ih => rw [allExpressions, ih, List.flatMap_cons]

theorem allExpressions_mapAllExprs {f : Expr → Expr} {ss : List Stmt}
    (ih : ∀ s ∈ ss, (s.mapExprs f).expressions = s.expressions.map f) :
    allExpressions (mapAllExprs f ss) = (allExpressions ss).map f := by
  simp only [mapAllExprs_eq_map, allExpressions_eq_flatMap, List.flatMap_map, List.map_flatMap]
  exact List.flatMap_congr ih

theorem expressions_mapExprs (f : Expr → Expr) (s : Stmt) :
    (s.mapExprs f).expressions = s.expressions.map f := by
  induction s with
  | expr _ _ | assign _ _ _ => rfl
  | ret origin value => cases value <;> rfl
  | block origin body ih => exact allExpressions_mapAllExprs ih

theorem mapAllExprs_eq_self {f : Expr → Expr} {ss : List Stmt}
    (ih : ∀ s ∈ ss, (∀ e ∈ s.expressions, f e = e) → s.mapExprs f = s)
    (h : ∀ e ∈ allExpressions ss, f e = e) : mapAllExprs f ss = ss := by
  simp only [allExpressions_eq_flatMap, List.mem_flatMap] at h
  rw [mapAllExprs_eq_map]
  exact map_eq_self fun s hs => ih s hs fun e he => h e ⟨s, hs, he⟩

theorem mapExprs_eq_self {f : Expr → Expr} (s : Stmt) (h : ∀ e ∈ s.expressions, f e = e) :
    s.mapExprs f = s := by
  induction s with
  | expr origin x => rw [mapExprs, h x (by simp [expressions])]
  | assign origin target value => rw [mapExprs, h value (by simp [expressions])]
  | ret origin value =>
      cases value with
      | none => rfl
      | some value => rw [mapExprs, Option.map_some, h value (by simp [expressions])]
  | block origin body ih => rw [mapExprs, mapAllExprs_eq_self ih h]

theorem expandAll_first {decls : Declarations} {ss : List Stmt}
    (ih : ∀ s ∈ ss, (s.expand decls).failure =
      s.expressions.findSome? fun e => (e.expand decls).failure) :
    (expandAll decls ss).failure =
      (allExpressions ss).findSome? fun e => (e.expand decls).failure := by
  rw [expandAll_eq_traverse, Progress.traverse_failure, allExpressions_eq_flatMap]
  exact findSome?_eq_flatMap ih

/-- A statement fails to expand for the first of its expressions that does. -/
theorem expand_first (decls : Declarations) (s : Stmt) :
    (s.expand decls).failure = s.expressions.findSome? fun e => (e.expand decls).failure := by
  induction s with
  | expr _ _ | assign _ _ _ => simp only [expand, expressions, List.findSome?_singleton, Progress.map]
  | ret origin value =>
      cases value with
      | none => rfl
      | some value =>
          simp only [expand, expressions, Option.toList_some, List.findSome?_singleton,
            Progress.map]
  | block origin body ih => exact expandAll_first ih

theorem expandAll_value {decls : Declarations} {ss : List Stmt}
    (ih : ∀ s ∈ ss, (s.expand decls).failure = none →
      (s.expand decls).value = s.mapExprs fun e => (e.expand decls).value)
    (h : (expandAll decls ss).failure = none) :
    (expandAll decls ss).value = mapAllExprs (fun e => (e.expand decls).value) ss := by
  rw [expandAll_eq_traverse] at h ⊢
  have expands := Progress.traverse_failure_eq_none.mp h
  rw [Progress.traverse_value _ expands, mapAllExprs_eq_map]
  exact List.map_congr_left fun s hs => ih s hs (expands s hs)

theorem expand_value {decls : Declarations} (s : Stmt) (h : (s.expand decls).failure = none) :
    (s.expand decls).value = s.mapExprs fun e => (e.expand decls).value := by
  induction s with
  | expr _ _ | assign _ _ _ => rfl
  | ret origin value => cases value <;> rfl
  | block origin body ih => exact congrArg (block origin) (expandAll_value ih h)

end Stmt

namespace Method

def mapExprs (f : Expr → Expr) (method : Method) : Method :=
  { method with body := Stmt.mapAllExprs f method.body }

theorem expressions_mapExprs (f : Expr → Expr) (method : Method) :
    (method.mapExprs f).expressions = method.expressions.map f :=
  Stmt.allExpressions_mapAllExprs fun s _ => s.expressions_mapExprs f

theorem mapExprs_eq_self {f : Expr → Expr} (method : Method)
    (h : ∀ e ∈ method.expressions, f e = e) : method.mapExprs f = method := by
  rw [mapExprs, Stmt.mapAllExprs_eq_self (fun s _ => s.mapExprs_eq_self) h]

theorem expand_first (decls : Declarations) (method : Method) :
    (method.expand decls).failure =
      method.expressions.findSome? fun e => (e.expand decls).failure :=
  Stmt.expandAll_first fun s _ => s.expand_first decls

theorem expanded_eq_mapExprs {decls : Declarations} (method : Method)
    (h : (method.expand decls).failure = none) :
    method.expanded decls = method.mapExprs fun e => (e.expand decls).value := by
  have body := Stmt.expandAll_value (fun s _ => s.expand_value) h
  rw [expanded, expand, Progress.map, body, mapExprs]

end Method

namespace SourceModule

/-- The module with the expressions of its methods changed, and nothing else. -/
def mapExprs (f : Expr → Expr) (source : SourceModule) : SourceModule :=
  { source with methods := source.methods.map (Method.mapExprs f) }

theorem expressions_mapExprs (f : Expr → Expr) (source : SourceModule) :
    (source.mapExprs f).expressions = source.expressions.map f := by
  simp only [expressions, mapExprs, List.flatMap_map, List.map_flatMap]
  exact List.flatMap_congr fun method _ => method.expressions_mapExprs f

theorem mapExprs_eq_self {f : Expr → Expr} (source : SourceModule)
    (h : ∀ e ∈ source.expressions, f e = e) : source.mapExprs f = source := by
  simp only [expressions, List.mem_flatMap] at h
  have methods : source.methods.map (Method.mapExprs f) = source.methods :=
    map_eq_self fun method hm => method.mapExprs_eq_self fun e he => h e ⟨method, hm, he⟩
  rw [mapExprs, methods]

/-- A module fails to expand for the first of its expressions that does. -/
theorem expand_first (decls : Declarations) (source : SourceModule) :
    (source.expand decls).failure =
      source.expressions.findSome? fun e => (e.expand decls).failure := by
  rw [expand_failure, expressions]
  exact findSome?_eq_flatMap fun method _ => method.expand_first decls

theorem expand_result_of_expressions {decls : Declarations} (source : SourceModule)
    (h : ∀ e ∈ source.expressions, (e.expand decls).failure = none) :
    (source.expand decls).result = .ok (source.mapExprs fun e => (e.expand decls).value) := by
  have expands : ∀ method ∈ source.methods, (method.expand decls).failure = none := by
    intro method hmethod
    rw [Method.expand_first, List.findSome?_eq_none_iff]
    exact fun e he => h e (List.mem_flatMap.mpr ⟨method, hmethod, he⟩)
  rw [expand_result expands, expanded, mapExprs,
    List.map_congr_left fun method hm => method.expanded_eq_mapExprs (expands method hm)]

theorem expressions_expanded {decls : Declarations} {source : SourceModule}
    (h : ∀ method ∈ source.methods, (method.expand decls).failure = none) :
    (source.expanded decls).expressions =
      source.expressions.map (Expr.fill (Placeholder.resolved decls)) := by
  have expands := expand_result h
  have each := (Progress.result_eq_ok.mp expands).1
  rw [expand_first, List.findSome?_eq_none_iff] at each
  rw [source.expand_result_of_expressions each, Except.ok.injEq] at expands
  rw [← expands, expressions_mapExprs]
  exact List.map_congr_left fun e he => (e.expand_fills (each e he)).1

end SourceModule

/-- Expansion that goes through replaces every placeholder of an expression by its literal and
changes nothing else about it. Where there is no placeholder it goes through and changes nothing. It
does the same to a module in every expression of every method, at any depth of blocks, and keeps all
the rest; a second time it makes no difference. -/
theorem expansion_complete (decls : Declarations) :
    (∀ e e' : Expr, (e.expand decls).result = .ok e' → e.Expands decls e') ∧
      (∀ e : Expr, e.hasPlaceholder = false → (e.expand decls).result = .ok e) ∧
      ∀ source source' : SourceModule, (source.expand decls).result = .ok source' →
        (∃ rewrite : Expr → Expr, source' = source.mapExprs rewrite ∧
          source'.expressions = source.expressions.map rewrite ∧
          ∀ e ∈ source.expressions, e.Expands decls (rewrite e)) ∧
        (source'.expand decls).result = .ok source' := by
  refine ⟨?_, ?_, ?_⟩
  · intro e e' h
    obtain ⟨expands, rfl⟩ := Progress.result_eq_ok.mp h
    exact e.expand_expands expands
  · intro e h
    rw [e.expand_of_expanded h]
    rfl
  · intro source source' h
    obtain ⟨expands, -⟩ := Progress.result_eq_ok.mp h
    rw [source.expand_first, List.findSome?_eq_none_iff] at expands
    rw [source.expand_result_of_expressions expands] at h
    obtain rfl := Except.ok.inj h
    have each : ∀ e ∈ source.expressions, e.Expands decls (e.expand decls).value :=
      fun e he => e.expand_expands (expands e he)
    have order := source.expressions_mapExprs fun e => (e.expand decls).value
    refine ⟨⟨_, rfl, order, each⟩, ?_⟩
    -- the second time there is nothing left to replace
    have settled : ∀ e ∈ (source.mapExprs fun e => (e.expand decls).value).expressions,
        e.expand decls = .done e := by
      intro e he
      rw [order] at he
      obtain ⟨original, horiginal, rfl⟩ := List.mem_map.mp he
      exact Expr.expand_of_expanded _ (each original horiginal).complete
    rw [SourceModule.expand_result_of_expressions _ fun e he => by rw [settled e he]; rfl,
      SourceModule.mapExprs_eq_self _ fun e he => by rw [settled e he]; rfl]

namespace Coin

def site (node : UInt32) : Site := ⟨⟨⟨node⟩, 1⟩, ⟨2⟩⟩

/-- A token module, and the scope of a method inside it. -/
def decls : Declarations where
  scopes := [.root, ⟨"coin", some .root, some (.token "coin" .token "COIN")⟩,
    ⟨"pay", some ⟨1⟩, none⟩]
  vars := [⟨"self", .address, none⟩]

/-- Two expressions below blocks, one of them inside an argument of a call. -/
def pay (address symbol : Expr) : Method where
  origin := (site 1).toOrigin
  name := "pay"
  scope := ⟨2⟩
  params := []
  returns := .void
  body :=
    [.block (site 2).toOrigin
      [.assign (site 3).toOrigin ⟨0⟩ address,
        .block (site 4).toOrigin
          [.expr (site 5).toOrigin (.call (site 6) (.toContract "bank" "pay" .void)
            [.var (site 7) ⟨0⟩, .binary (site 8) .add (.lit (site 9) "1 " .string) symbol])]]]
  exported := true

def source (address symbol : Expr) : SourceModule := ⟨⟨1⟩, [pay address symbol], []⟩

def written : SourceModule :=
  source (.placeholder (site 10) "$THIS_ADDRESS") (.placeholder (site 11) "THIS_SYMBOL")

def filled : SourceModule :=
  source (.lit (site 10) (Address.literal "coin") .address) (.lit (site 11) "COIN" .string)

end Coin

open Coin in
theorem expansion_complete_coin :
    (written.expand decls).result = .ok filled ∧ filled ≠ written ∧
      (∃ rewrite : Expr → Expr, filled = written.mapExprs rewrite ∧
        ∀ e ∈ written.expressions, e.Expands decls (rewrite e)) ∧
      (filled.expand decls).result = .ok filled := by
  have expands : (written.expand decls).result = .ok filled := rfl
  obtain ⟨⟨rewrite, filled_eq, -, each⟩, again⟩ :=
    (expansion_complete decls).2.2 written filled expands
  exact ⟨expands, by simp [filled, written, source, pay], ⟨rewrite, filled_eq, each⟩, again⟩

end ContractLowering
