import Dialogue.Log.Event

/-! Computations that report events and may fail. What was reported before a failure is kept. -/

namespace Dialogue

/-- The events of a computation, and its outcome. -/
structure Logged (ε α : Type) where
  events : List Event
  outcome : Except ε α

namespace Logged

variable {ε α β : Type}

/-- A computation that only has the given outcome. -/
def ofExcept (outcome : Except ε α) : Logged ε α :=
  ⟨[], outcome⟩

/-- A computation that only reports these events. -/
def report (events : List Event) : Logged ε Unit :=
  ⟨events, .ok ()⟩

/-- Goes on with the value of a computation that succeeds. -/
protected def bind (first : Logged ε α) (next : α → Logged ε β) : Logged ε β :=
  match first.outcome with
  | .error error => ⟨first.events, .error error⟩
  | .ok value => ⟨first.events ++ (next value).events, (next value).outcome⟩

/-- The same computation with another account of its failure. -/
def mapError {δ : Type} (rename : ε → δ) (logged : Logged ε α) : Logged δ α :=
  ⟨logged.events, logged.outcome.mapError rename⟩

instance : Monad (Logged ε) where
  pure value := ofExcept (.ok value)
  bind := Logged.bind

instance : MonadExceptOf ε (Logged ε) where
  throw error := ofExcept (.error error)
  tryCatch first recover :=
    match first.outcome with
    | .error error => ⟨first.events ++ (recover error).events, (recover error).outcome⟩
    | .ok _ => first

@[simp] theorem outcome_pure (value : α) : (pure value : Logged ε α).outcome = .ok value :=
  rfl

@[simp] theorem outcome_ofExcept (outcome : Except ε α) : (ofExcept outcome).outcome = outcome :=
  rfl

@[simp] theorem outcome_report (events : List Event)
    : (report events : Logged ε Unit).outcome = .ok () :=
  rfl

/-- Events do not influence outcomes, by cases on the first outcome. -/
@[simp] theorem outcome_bind (first : Logged ε α) (next : α → Logged ε β)
    : (first >>= next).outcome = first.outcome >>= fun value => (next value).outcome := by
  obtain ⟨events, outcome⟩ := first
  cases outcome <;> rfl

@[simp] theorem outcome_throw (error : ε) : (throw error : Logged ε α).outcome = .error error :=
  rfl

/-- A function is applied to the outcome alone, by cases on it. -/
@[simp] theorem outcome_map (f : α → β) (logged : Logged ε α)
    : (f <$> logged).outcome = f <$> logged.outcome := by
  obtain ⟨events, outcome⟩ := logged
  cases outcome <;> rfl

end Logged

end Dialogue
