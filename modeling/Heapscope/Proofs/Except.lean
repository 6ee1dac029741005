import Mathlib.Tactic.Common

/-!
# Computations that may fail

A computation that succeeds is taken apart into its parts, all of which have succeeded.  One that
may have several faults reports the first of them.

* `exists_of_bind_ok`, `exists_of_map_ok` -- the parts of a sequence and of a map;
* `map_map` -- one map after another;
* `forM_ok_iff` -- a check of all elements of a list;
* `Reports` -- a computation that fails with the first of some faults.
-/

namespace Heapscope

variable {ε α β : Type}

theorem exists_of_bind_ok {x : Except ε α} {f : α → Except ε β} {b : β}
    (ok : x >>= f = .ok b) : ∃ a, x = .ok a ∧ f a = .ok b := by
  cases x with
  | error e => cases ok
  | ok a => exact ⟨a, rfl, ok⟩

theorem exists_of_map_ok {x : Except ε α} {f : α → β} {b : β} (ok : x.map f = .ok b) :
    ∃ a, x = .ok a ∧ b = f a := by
  cases x with
  | error e => cases ok
  | ok a =>
    cases ok
    exact ⟨a, rfl, rfl⟩

theorem map_map {γ : Type} (x : Except ε α) (f : α → β) (g : β → γ) :
    (x.map f).map g = x.map fun a => g (f a) := by
  cases x <;> rfl

/-- A map fails as what it maps. -/
theorem error_of_map_error {x : Except ε α} {f : α → β} {e : ε} (error : x.map f = .error e) :
    x = .error e := by
  cases x with
  | error e' =>
    cases error
    rfl
  | ok a => cases error

/-- A check of all elements succeeds when the check of each does. -/
theorem forM_ok_iff {check : α → Except ε Unit} {l : List α} :
    l.forM check = .ok () ↔ ∀ a ∈ l, check a = .ok () := by
  induction l with
  | nil => simp [pure, Except.pure]
  | cons a rest ih =>
    rw [List.forall_mem_cons, ← ih]
    show (check a >>= fun _ => rest.forM check) = .ok () ↔ _
    cases check a with
    | error e => simp [bind, Except.bind]
    | ok => simp [bind, Except.bind]

/-! ## The first of some faults -/

/-- A computation fails with the first of some faults, and succeeds when there are none. -/
def Reports (x : Except ε α) (faults : List ε) : Prop :=
  match x with
  | .error e => faults.head? = some e
  | .ok _ => faults = []

namespace Reports

variable {x : Except ε α} {f : α → Except ε β} {faults more : List ε}

theorem pure (a : α) : Reports (Pure.pure a : Except ε α) [] := rfl

theorem throw (e : ε) (faults : List ε) :
    Reports (MonadExcept.throw e : Except ε α) (e :: faults) :=
  rfl

theorem bind (first : Reports x faults) (next : ∀ a, x = .ok a → Reports (f a) more) :
    Reports (x >>= f) (faults ++ more) := by
  cases x with
  | error e =>
    show (faults ++ more).head? = some e
    rw [List.head?_append, show faults.head? = some e from first]
    rfl
  | ok a =>
    rw [show faults = [] from first]
    exact next a rfl

theorem map (reports : Reports x faults) (g : α → β) :
    Reports (x >>= fun a => Pure.pure (g a)) faults := by
  have bound := reports.bind fun a _ => pure (g a)
  rwa [List.append_nil] at bound

theorem error_iff (reports : Reports x faults) {e : ε} : x = .error e ↔ faults.head? = some e := by
  cases x with
  | error e' =>
    rw [show faults.head? = some e' from reports]
    simp
  | ok a =>
    rw [show faults = [] from reports]
    simp

theorem ok_iff (reports : Reports x faults) : (∃ a, x = .ok a) ↔ faults = [] := by
  cases x with
  | error e =>
    rw [← List.head?_eq_none_iff, show faults.head? = some e from reports]
    simp
  | ok a => exact ⟨fun _ => reports, fun _ => ⟨a, rfl⟩⟩

/-- A check of all elements reports the first fault of the first that has any. -/
theorem forM {check : α → Except ε Unit} {faultsOf : α → List ε}
    (reports : ∀ a, Reports (check a) (faultsOf a)) (l : List α) :
    Reports (l.forM check) (l.flatMap faultsOf) := by
  induction l with
  | nil => exact pure ()
  | cons a rest ih =>
    rw [List.flatMap_cons]
    exact (reports a).bind fun _ _ => ih

end Reports

end Heapscope
