import ContractLowering.Expr.Basic
import ContractLowering.Stmt.Basic

/-!
Reasoning about steps that may fail and keep the state they failed in. `Ends` says of one run what
holds however it ends; `Agree` says of two runs that they end alike. Both go through a sequence of
steps one step at a time. The induction principles for source trees stand here too: a node may
assume the property of every member of its list of children.
-/

namespace ContractLowering

variable {ε σ τ α β γ δ : Type}

/-- The first property holds of the value and the state of a success, the second one of the error
and the state of a failure. -/
def Ends (done : α → σ → Prop) (failed : ε → σ → Prop) : EStateM.Result ε σ α → Prop
  | .ok a s => done a s
  | .error e s => failed e s

namespace Ends

theorem mono {done done' : α → σ → Prop} {failed failed' : ε → σ → Prop}
    {r : EStateM.Result ε σ α} (h : Ends done failed r)
    (hdone : ∀ a s, done a s → done' a s) (hfailed : ∀ e s, failed e s → failed' e s) :
    Ends done' failed' r := by
  cases r with
  | ok a s => exact hdone a s h
  | error e s => exact hfailed e s h

theorem bind {done : α → σ → Prop} {done' : β → σ → Prop} {failed : ε → σ → Prop}
    {x : EStateM ε σ α} {f : α → EStateM ε σ β} {s : σ} (h : Ends done failed (x s))
    (k : ∀ a s', done a s' → Ends done' failed (f a s')) : Ends done' failed ((x >>= f) s) := by
  change Ends done' failed (EStateM.bind x f s)
  rw [EStateM.bind]
  cases hx : x s with
  | ok a s' =>
      rw [hx] at h
      exact k a s' h
  | error e s' =>
      rw [hx] at h
      exact h

/-- Reads off what holds of a run that is known to succeed. -/
theorem of_ok {done : α → σ → Prop} {failed : ε → σ → Prop} {r : EStateM.Result ε σ α} {a : α}
    {s : σ} (h : Ends done failed r) (hr : r = .ok a s) : done a s := by
  subst hr
  exact h

theorem of_error {done : α → σ → Prop} {failed : ε → σ → Prop} {r : EStateM.Result ε σ α} {e : ε}
    {s : σ} (h : Ends done failed r) (hr : r = .error e s) : failed e s := by
  subst hr
  exact h

/-- More is known of a success. -/
theorem also {done done' : α → σ → Prop} {failed failed' : ε → σ → Prop}
    {r : EStateM.Result ε σ α} (h : Ends done failed r) (k : Ends done' failed' r) :
    Ends (fun a s => done a s ∧ done' a s) failed r := by
  cases r with
  | ok a s => exact ⟨h, k⟩
  | error e s => exact h

theorem succeeds {done : α → σ → Prop} {r : EStateM.Result ε σ α}
    (h : Ends done (fun _ _ => False) r) : ∃ a s, r = .ok a s ∧ done a s := by
  cases r with
  | ok a s => exact ⟨a, s, rfl, h⟩
  | error e s => exact h.elim

theorem fails {failed : ε → σ → Prop} {r : EStateM.Result ε σ α}
    (h : Ends (fun _ _ => False) failed r) : ∃ e s, r = .error e s ∧ failed e s := by
  cases r with
  | ok a s => exact h.elim
  | error e s => exact ⟨e, s, rfl, h⟩

instance {done : α → σ → Prop} {failed : ε → σ → Prop} [∀ a s, Decidable (done a s)]
    [∀ e s, Decidable (failed e s)] : (r : EStateM.Result ε σ α) → Decidable (Ends done failed r)
  | .ok a s => inferInstanceAs (Decidable (done a s))
  | .error e s => inferInstanceAs (Decidable (failed e s))

end Ends

/-- The error of a run that failed. -/
def failure? : EStateM.Result ε σ α → Option ε
  | .ok _ _ => none
  | .error e _ => some e

theorem failure?_eq_none {r : EStateM.Result ε σ α} : failure? r = none ↔ ∃ a s, r = .ok a s := by
  cases r <;> simp [failure?]

/-- The state that a run ended in. -/
def stateAfter : EStateM.Result ε σ α → σ
  | .ok _ s => s
  | .error _ s => s

theorem Ends.stateAfter {inv : σ → Prop} {r : EStateM.Result ε σ α}
    (h : Ends (fun _ s => inv s) (fun _ s => inv s) r) : inv (stateAfter r) := by
  cases r with
  | ok a s => exact h
  | error e s => exact h

/-- Two runs that both succeed with related values or both fail with the same error, and end in
related states. -/
def Agree (related : σ → τ → Prop) (values : α → β → Prop) :
    EStateM.Result ε σ α → EStateM.Result ε τ β → Prop
  | .ok a s, .ok b t => values a b ∧ related s t
  | .error e s, .error e' t => e = e' ∧ related s t
  | _, _ => False

namespace Agree

variable {related : σ → τ → Prop}

/-- What follows may use how the two first steps ran. -/
theorem bind_runs {values : α → β → Prop} {values' : γ → δ → Prop} {x : EStateM ε σ α}
    {y : EStateM ε τ β} {f : α → EStateM ε σ γ} {g : β → EStateM ε τ δ} {s : σ} {t : τ}
    (h : Agree related values (x s) (y t))
    (k : ∀ a b s' t', x s = .ok a s' → y t = .ok b t' → values a b → related s' t' →
      Agree related values' (f a s') (g b t')) :
    Agree related values' ((x >>= f) s) ((y >>= g) t) := by
  change Agree related values' (EStateM.bind x f s) (EStateM.bind y g t)
  rw [EStateM.bind, EStateM.bind]
  cases hx : x s with
  | ok a s' =>
      cases hy : y t with
      | ok b t' =>
          rw [hx, hy] at h
          exact k a b s' t' hx hy h.1 h.2
      | error e t' =>
          rw [hx, hy] at h
          exact h.elim
  | error e s' =>
      cases hy : y t with
      | ok b t' =>
          rw [hx, hy] at h
          exact h.elim
      | error e' t' => rwa [hx, hy] at h

theorem bind {values : α → β → Prop} {values' : γ → δ → Prop} {x : EStateM ε σ α}
    {y : EStateM ε τ β} {f : α → EStateM ε σ γ} {g : β → EStateM ε τ δ} {s : σ} {t : τ}
    (h : Agree related values (x s) (y t))
    (k : ∀ a b s' t', values a b → related s' t' → Agree related values' (f a s') (g b t')) :
    Agree related values' ((x >>= f) s) ((y >>= g) t) :=
  h.bind_runs fun a b s' t' _ _ => k a b s' t'

/-- A step that gives both runs the same value. -/
theorem andThen {values : γ → δ → Prop} {x : EStateM ε σ α} {y : EStateM ε τ α}
    {f : α → EStateM ε σ γ} {g : α → EStateM ε τ δ} {s : σ} {t : τ}
    (h : Agree related Eq (x s) (y t))
    (k : ∀ a s' t', related s' t' → Agree related values (f a s') (g a t')) :
    Agree related values ((x >>= f) s) ((y >>= g) t) := by
  refine h.bind ?_
  intro a b s' t' hab hst
  subst hab
  exact k a s' t' hst

theorem ofExcept {s : σ} {t : τ} (h : related s t) (x : Except ε α) :
    Agree related Eq ((MonadExcept.ofExcept x : EStateM ε σ α) s)
      ((MonadExcept.ofExcept x : EStateM ε τ α) t) := by
  cases x with
  | ok a => exact ⟨rfl, h⟩
  | error e => exact ⟨rfl, h⟩

theorem of_ok {values : α → β → Prop} {r : EStateM.Result ε σ α} {r' : EStateM.Result ε τ β} {a : α}
    {s : σ} (h : Agree related values r r') (hr : r = .ok a s) :
    ∃ b t, r' = .ok b t ∧ values a b ∧ related s t := by
  subst hr
  cases r' with
  | ok b t => exact ⟨b, t, rfl, h⟩
  | error e t => exact h.elim

theorem of_error {values : α → β → Prop} {r : EStateM.Result ε σ α} {r' : EStateM.Result ε τ β}
    {e : ε} {s : σ} (h : Agree related values r r') (hr : r = .error e s) :
    ∃ t, r' = .error e t ∧ related s t := by
  subst hr
  cases r' with
  | ok b t => exact h.elim
  | error e' t =>
      obtain ⟨rfl, hst⟩ := h
      exact ⟨t, rfl, hst⟩

end Agree

theorem bind_ok {x : EStateM ε σ α} {f : α → EStateM ε σ β} {s s'' : σ} {b : β}
    (h : (x >>= f) s = .ok b s'') : ∃ a s', x s = .ok a s' ∧ f a s' = .ok b s'' := by
  change EStateM.bind x f s = .ok b s'' at h
  rw [EStateM.bind] at h
  cases hx : x s with
  | ok a s' => exact ⟨a, s', rfl, by simpa only [hx] using h⟩
  | error e s' => simp only [hx, reduceCtorEq] at h

theorem bind_of_ok {x : EStateM ε σ α} {f : α → EStateM ε σ β} {s s' : σ} {a : α}
    (h : x s = .ok a s') : (x >>= f) s = f a s' := by
  change EStateM.bind x f s = f a s'
  simp only [EStateM.bind, h]

theorem bind_of_error {x : EStateM ε σ α} {f : α → EStateM ε σ β} {s s' : σ} {e : ε}
    (h : x s = .error e s') : (x >>= f) s = .error e s' := by
  change EStateM.bind x f s = .error e s'
  simp only [EStateM.bind, h]

theorem get_bind (k : σ → EStateM ε σ α) (s : σ) : (get >>= k) s = k s s := rfl

@[simp]
theorem ofExcept_ok (a : α) (s : σ) :
    (MonadExcept.ofExcept (.ok a : Except ε α) : EStateM ε σ α) s = .ok a s := rfl

@[simp]
theorem ofExcept_error (e : ε) (s : σ) :
    (MonadExcept.ofExcept (.error e : Except ε α) : EStateM ε σ α) s = .error e s := rfl

theorem ofExcept_eq_ok {x : Except ε α} {s s' : σ} {a : α}
    (h : (MonadExcept.ofExcept x : EStateM ε σ α) s = .ok a s') : x = .ok a ∧ s = s' := by
  cases x with
  | ok b =>
      simp only [ofExcept_ok, EStateM.Result.ok.injEq] at h
      exact ⟨by rw [h.1], h.2⟩
  | error e => simp only [ofExcept_error, reduceCtorEq] at h

@[induction_eliminator]
theorem Expr.induction {motive : Expr → Prop}
    (not : ∀ site x, motive x → motive (.not site x))
    (binary : ∀ site op left right, motive left → motive right →
      motive (.binary site op left right))
    (call : ∀ site binding args, (∀ arg ∈ args, motive arg) → motive (.call site binding args))
    (lit : ∀ site value kind, motive (.lit site value kind))
    (placeholder : ∀ site name, motive (.placeholder site name))
    (var : ∀ site id, motive (.var site id))
    (const : ∀ site id, motive (.const site id)) (e : Expr) : motive e :=
  match e with
  | .not s x => not s x (induction not binary call lit placeholder var const x)
  | .binary s op l r =>
      binary s op l r (induction not binary call lit placeholder var const l)
        (induction not binary call lit placeholder var const r)
  | .call s b args =>
      call s b args fun arg _ => induction not binary call lit placeholder var const arg
  | .lit s value kind => lit s value kind
  | .placeholder s name => placeholder s name
  | .var s id => var s id
  | .const s id => const s id

@[induction_eliminator]
theorem Stmt.induction {motive : Stmt → Prop}
    (expr : ∀ origin x, motive (.expr origin x))
    (assign : ∀ origin target value, motive (.assign origin target value))
    (ret : ∀ origin value, motive (.ret origin value))
    (block : ∀ origin body, (∀ s ∈ body, motive s) → motive (.block origin body)) (s : Stmt) :
    motive s :=
  match s with
  | .expr origin x => expr origin x
  | .assign origin target value => assign origin target value
  | .ret origin value => ret origin value
  | .block origin body => block origin body fun s _ => induction expr assign ret block s

end ContractLowering
