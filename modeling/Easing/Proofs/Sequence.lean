import Easing.Build
import Mathlib.Data.List.Forall2

/-! # Sequences of operations

An operation made of two parts has a result exactly if both parts have one. The
laws are stated once for each kind of operation, those that fail, those that give
notice and those that draw, so that the modules about compilers and sessions
take programs apart by rewriting.
-/

namespace Easing

variable {α β γ : Type}

namespace Except

variable {ε : Type}

theorem bind_eq_ok_iff {first : Except ε β} {second : β → Except ε γ} {c : γ} :
    (first >>= second) = .ok c ↔ ∃ b, first = .ok b ∧ second b = .ok c := by
  cases first with
  | error e =>
      constructor
      · intro h
        cases h
      · rintro ⟨_, h, _⟩
        cases h
  | ok b =>
      constructor
      · exact fun h => ⟨b, rfl, h⟩
      · rintro ⟨_, h, hsecond⟩
        cases h
        exact hsecond

/-- A function that is applied along a list has a result for each element. -/
theorem forall₂_of_mapM {f : β → Except ε γ} {xs : List β} {ys : List γ}
    (h : xs.mapM f = .ok ys) : List.Forall₂ (fun x y => f x = .ok y) xs ys := by
  induction xs generalizing ys with
  | nil =>
      cases h
      exact .nil
  | cons x xs ih =>
      rw [List.mapM_cons, bind_eq_ok_iff] at h
      obtain ⟨y, hy, h⟩ := h
      obtain ⟨rest, hrest, h⟩ := bind_eq_ok_iff.mp h
      cases h
      exact .cons hy (ih hrest)

/-- A function has a result along a list exactly if it has one for each element. -/
theorem mapM_eq_ok_iff {f : β → Except ε γ} {xs : List β} {ys : List γ} :
    xs.mapM f = .ok ys ↔ List.Forall₂ (fun x y => f x = .ok y) xs ys := by
  constructor
  · exact forall₂_of_mapM
  · intro h
    induction h with
    | nil => rfl
    | cons hhead _ ih =>
        rw [List.mapM_cons, hhead, ih]
        rfl

/-- A function has values along a list if it has one at each element. -/
theorem exists_forall₂_iff {f : β → Except ε γ} {xs : List β} :
    (∃ ys, List.Forall₂ (fun x y => f x = .ok y) xs ys) ↔ ∀ x ∈ xs, ∃ y, f x = .ok y := by
  induction xs with
  | nil => simp
  | cons x xs ih =>
      rw [List.forall_mem_cons, ← ih]
      constructor
      · rintro ⟨_, _ | ⟨hy, hys⟩⟩
        exact ⟨⟨_, hy⟩, _, hys⟩
      · rintro ⟨⟨y, hy⟩, ys, hys⟩
        exact ⟨y :: ys, .cons hy hys⟩

/-- What holds of the values of two functions along one list, combined in pairs, is what
holds at each element. -/
theorem forall_mem_zipWith_iff {δ : Type} {f : α → Except ε β}
    {g : α → Except ε γ} {op : β → γ → δ} {P : δ → Prop} {xs : List α} {ys : List β}
    {zs : List γ} (hys : List.Forall₂ (fun x y => f x = .ok y) xs ys)
    (hzs : List.Forall₂ (fun x z => g x = .ok z) xs zs) :
    (∀ d ∈ List.zipWith op ys zs, P d) ↔
      ∀ x ∈ xs, ∀ y z, f x = .ok y → g x = .ok z → P (op y z) := by
  induction hys generalizing zs with
  | nil => simp
  | @cons x y xs ys hy _ ih =>
      cases hzs with
      | @cons _ z _ zs hz hzs =>
          rw [List.zipWith_cons_cons, List.forall_mem_cons, List.forall_mem_cons, ih hzs, hy, hz]
          refine and_congr_left fun _ => ⟨?_, fun h => h y z rfl rfl⟩
          intro h y' z' hy' hz'
          rwa [← Except.ok.inj hy', ← Except.ok.inj hz']

theorem bind_eq_error_iff {first : Except ε β} {second : β → Except ε γ} {e : ε} :
    (first >>= second) = .error e ↔
      first = .error e ∨ ∃ b, first = .ok b ∧ second b = .error e := by
  cases first with
  | error e' =>
      constructor
      · intro h
        cases h
        exact .inl rfl
      · rintro (h | ⟨_, h, _⟩)
        · cases h
          rfl
        · cases h
  | ok b =>
      constructor
      · exact fun h => .inr ⟨b, rfl, h⟩
      · rintro (h | ⟨_, h, hsecond⟩)
        · cases h
        · cases h
          exact hsecond

/-- Where the second part cannot fail, the first one has failed. -/
theorem eq_error_of_bind_pure {first : Except ε β} {f : β → γ} {e : ε}
    (h : (first >>= fun b => pure (f b)) = .error e) : first = .error e := by
  rcases bind_eq_error_iff.mp h with h | ⟨_, _, h⟩
  · exact h
  · cases h

theorem eq_ok_of_toOption {x : Except ε β} {b : β} (h : x.toOption = some b) : x = .ok b := by
  cases x with
  | error e => cases h
  | ok b' =>
      cases h
      rfl

/-- Applying a function along a list has a result if the function has one everywhere. -/
theorem exists_mapM {f : β → Except ε γ} {P : β → γ → Prop} {xs : List β}
    (h : ∀ x ∈ xs, ∃ y, f x = .ok y ∧ P x y) :
    ∃ ys, xs.mapM f = .ok ys ∧ List.Forall₂ P xs ys := by
  induction xs with
  | nil => exact ⟨[], rfl, .nil⟩
  | cons x xs ih =>
      obtain ⟨⟨y, hy, hvalue⟩, hrest⟩ := List.forall_mem_cons.mp h
      obtain ⟨ys, hys, hvalues⟩ := ih hrest
      refine ⟨y :: ys, ?_, .cons hvalue hvalues⟩
      rw [List.mapM_cons, hy, hys]
      rfl

/-- Applying a function along a list fails where the function fails first. -/
theorem mapM_eq_error_iff {f : β → Except ε γ} {xs : List β} {e : ε} :
    xs.mapM f = .error e ↔ ∃ (i : Nat) (_ : i < xs.length), f xs[i] = .error e ∧
      ∀ (j : Nat) (_ : j < i), ∃ y, f xs[j] = .ok y := by
  induction xs with
  | nil =>
      constructor
      · intro h
        cases h
      · rintro ⟨i, hi, _⟩
        exact absurd hi (Nat.not_lt_zero i)
  | cons x xs ih =>
      rw [List.mapM_cons, bind_eq_error_iff]
      constructor
      · rintro (h | ⟨y, hy, h⟩)
        · exact ⟨0, Nat.zero_lt_succ _, h, fun j hj => absurd hj (Nat.not_lt_zero j)⟩
        · obtain ⟨i, hi, hfails, hbefore⟩ := ih.mp (eq_error_of_bind_pure h)
          refine ⟨i + 1, Nat.succ_lt_succ hi, hfails, fun j hj => ?_⟩
          cases j with
          | zero => exact ⟨y, hy⟩
          | succ j => exact hbefore j (Nat.lt_of_succ_lt_succ hj)
      · rintro ⟨i, hi, hfails, hbefore⟩
        cases i with
        | zero => exact .inl hfails
        | succ i =>
            obtain ⟨y, hy⟩ := hbefore 0 (Nat.zero_lt_succ i)
            refine .inr ⟨y, hy, ?_⟩
            rw [ih.mpr ⟨i, Nat.lt_of_succ_lt_succ hi, hfails, fun j hj =>
              hbefore (j + 1) (Nat.succ_lt_succ hj)⟩]
            rfl

theorem exists_of_mapM_eq_error {f : β → Except ε γ} {xs : List β} {e : ε}
    (h : xs.mapM f = .error e) : ∃ x ∈ xs, f x = .error e := by
  obtain ⟨i, hi, hfails, _⟩ := mapM_eq_error_iff.mp h
  exact ⟨xs[i], List.getElem_mem hi, hfails⟩

theorem exists_of_foldlM_eq_error {f : γ → β → Except ε γ} {xs : List β} {c : γ} {e : ε}
    (h : xs.foldlM f c = .error e) : ∃ x ∈ xs, ∃ d, f d x = .error e := by
  induction xs generalizing c with
  | nil => cases h
  | cons x xs ih =>
      rw [List.foldlM_cons, bind_eq_error_iff] at h
      rcases h with h | ⟨d, _, h⟩
      · exact ⟨x, List.mem_cons_self, c, h⟩
      · obtain ⟨y, hy, hfails⟩ := ih h
        exact ⟨y, List.mem_cons_of_mem x hy, hfails⟩

end Except

namespace Outcome

/-- A sequence has the result of its second part, or the fault of its first. -/
theorem result_bind (first : Outcome α β) (second : β → Outcome α γ) :
    (first >>= second).result = first.result >>= fun b => (second b).result := by
  rcases first with ⟨notices, f | b⟩ <;> rfl

/-- Along a list, an operation has the results that it has at each element. -/
theorem result_mapM (operation : γ → Outcome α β) (xs : List γ) :
    (xs.mapM operation).result = xs.mapM fun x => (operation x).result := by
  induction xs with
  | nil => rfl
  | cons x xs ih =>
      rw [List.mapM_cons, List.mapM_cons, result_bind]
      congr 1
      funext y
      rw [result_bind, ih]
      rfl

/-- A sequence has a result exactly if both parts have one. -/
theorem result_bind_eq_ok_iff {first : Outcome α β} {second : β → Outcome α γ} {c : γ} :
    (first >>= second).result = .ok c ↔
      ∃ b, first.result = .ok b ∧ (second b).result = .ok c := by
  rw [result_bind, Except.bind_eq_ok_iff]

theorem result_map_eq_ok_iff {first : Outcome α β} {f : β → γ} {c : γ} :
    (f <$> first).result = .ok c ↔ ∃ b, first.result = .ok b ∧ f b = c := by
  rw [map_eq_pure_bind, result_bind_eq_ok_iff]
  simp

@[simp] theorem map_mk_ok (f : β → γ) (notices : List (Notice α)) (b : β) :
    f <$> (⟨notices, .ok b⟩ : Outcome α β) = ⟨notices, .ok (f b)⟩ := by
  rw [map_eq_pure_bind, bind_mk_ok]
  simp

@[simp] theorem map_mk_error (f : β → γ) (notices : List (Notice α)) (fault : Fault α) :
    f <$> (⟨notices, .error fault⟩ : Outcome α β) = ⟨notices, .error fault⟩ := by
  rw [map_eq_pure_bind, bind_mk_error]

theorem result_ofEval_eq_ok_iff {result : Except EvalFault β} {b : β} :
    (ofEval result : Outcome α β).result = .ok b ↔ result = .ok b := by
  cases result <;> simp [ofEval, Except.mapError]

/-- What is made of an evaluation fails as the evaluation does. -/
theorem result_map_ofEval_eq_error_iff {result : Except EvalFault β} {f : β → γ}
    {fault : Fault α} :
    (f <$> (ofEval result : Outcome α β)).result = .error fault ↔
      ∃ cause, fault = .evaluation cause ∧ result = .error cause := by
  cases result with
  | ok b => exact iff_of_false nofun fun ⟨_, _, h⟩ => nomatch h
  | error cause =>
      constructor
      · intro h
        cases h
        exact ⟨cause, rfl, rfl⟩
      · rintro ⟨_, rfl, ⟨⟩⟩
        rfl

end Outcome

namespace Build

variable {first : Build α β} {second : β → Build α γ} {g g' : Generator}

@[simp] theorem pure_apply (b : β) (g : Generator) : (pure b : Build α β) g = (pure b, g) := rfl

@[simp] theorem ofOutcome_apply (outcome : Outcome α β) (g : Generator) :
    ofOutcome outcome g = (outcome, g) := rfl

/-- A sequence whose first part has a result goes on with the second part. -/
theorem bind_apply_ok {notices : List (Notice α)} {b : β}
    (h : first g = (⟨notices, .ok b⟩, g')) :
    (first >>= second) g =
      (⟨notices ++ (second b g').1.notices, (second b g').1.result⟩, (second b g').2) := by
  change bind first second g = _
  simp only [bind, h]

theorem bind_apply_error {notices : List (Notice α)} {f : Fault α}
    (h : first g = (⟨notices, .error f⟩, g')) :
    (first >>= second) g = (⟨notices, .error f⟩, g') := by
  change bind first second g = _
  simp only [bind, h]

/-- Applying a function to the result neither draws nor gives notice. -/
theorem map_apply (f : β → γ) (operation : Build α β) (g : Generator) :
    (f <$> operation) g = (f <$> (operation g).1, (operation g).2) := by
  rw [map_eq_pure_bind]
  rcases h : operation g with ⟨⟨notices, fault | b⟩, g'⟩
  · rw [bind_apply_error h]
    simp
  · rw [bind_apply_ok h]
    simp

/-- A sequence returns exactly if both parts return, the second from where the
first left the generator; the notices of the first come first. -/
theorem bind_eq_ok_iff {notices : List (Notice α)} {c : γ} :
    (first >>= second) g = (⟨notices, .ok c⟩, g') ↔
      ∃ before b middle after, first g = (⟨before, .ok b⟩, middle) ∧
        second b middle = (⟨after, .ok c⟩, g') ∧ notices = before ++ after := by
  rcases h : first g with ⟨⟨before, f | b⟩, middle⟩
  · rw [bind_apply_error h]
    simp
  · rw [bind_apply_ok h]
    constructor
    · intro heq
      rcases hsecond : second b middle with ⟨⟨after, result⟩, last⟩
      rw [hsecond] at heq
      simp only [Prod.mk.injEq, Outcome.mk.injEq] at heq
      obtain ⟨⟨rfl, rfl⟩, rfl⟩ := heq
      exact ⟨before, b, middle, after, rfl, hsecond, rfl⟩
    · rintro ⟨_, _, _, after, hfirst, hsecond, rfl⟩
      simp only [Prod.mk.injEq, Outcome.mk.injEq, Except.ok.injEq] at hfirst
      obtain ⟨⟨rfl, rfl⟩, rfl⟩ := hfirst
      rw [hsecond]

end Build

end Easing
