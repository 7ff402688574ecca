import Easing.Fault

/-! # Outcomes

The outcome of an operation is a result or a fault, together with the notices
given on the way; a fault does not take back the notices before it.
-/

namespace Easing

/-- A result or a fault, and the notices given before it, earliest first. -/
structure Outcome (α β : Type) where
  notices : List (Notice α)
  result : Except (Fault α) β

namespace Outcome

variable {α β γ δ : Type}

/-- An operation without a result. -/
def fault (f : Fault α) : Outcome α β := ⟨[], .error f⟩

/-- An operation that gives one notice. -/
def notify (notice : Notice α) : Outcome α Unit := ⟨[notice], .ok ()⟩

/-- An operation that gives no notice. -/
def ofResult (result : Except (Fault α) β) : Outcome α β := ⟨[], result⟩

/-- An evaluation as an operation. -/
def ofEval (result : Except EvalFault β) : Outcome α β :=
  ⟨[], result.mapError Fault.evaluation⟩

/-- The first operation and then, if it has a result, the second. -/
def bind (first : Outcome α β) (second : β → Outcome α γ) : Outcome α γ :=
  match first.result with
  | .error f => ⟨first.notices, .error f⟩
  | .ok b => ⟨first.notices ++ (second b).notices, (second b).result⟩

instance : Monad (Outcome α) where
  pure b := ⟨[], .ok b⟩
  bind := bind

@[simp] theorem notices_pure (b : β) : (pure b : Outcome α β).notices = [] := rfl

@[simp] theorem result_pure (b : β) : (pure b : Outcome α β).result = .ok b := rfl

@[simp] theorem bind_mk_ok (notices : List (Notice α)) (b : β) (second : β → Outcome α γ) :
    (⟨notices, .ok b⟩ : Outcome α β) >>= second
      = ⟨notices ++ (second b).notices, (second b).result⟩ := rfl

@[simp] theorem bind_mk_error (notices : List (Notice α)) (f : Fault α)
    (second : β → Outcome α γ) :
    (⟨notices, .error f⟩ : Outcome α β) >>= second = ⟨notices, .error f⟩ := rfl

instance : LawfulMonad (Outcome α) :=
  LawfulMonad.mk' (Outcome α)
    (fun x => by rcases x with ⟨notices, _ | b⟩ <;> simp [Functor.map, bind])
    (fun b second => by simp [pure, Bind.bind, bind])
    (fun x second third => by
      rcases x with ⟨notices, f | b⟩
      · rfl
      · rcases h : second b with ⟨notices', f | c⟩ <;> simp [Bind.bind, bind, h])

end Outcome

end Easing
