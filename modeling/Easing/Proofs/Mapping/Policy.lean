import Easing.Proofs.Sequence
import Easing.Mapping.Basic

/-! # The action for numbers outside a range only reports them

An outcome whose ranges give notice determines the outcomes under the other two
actions: silently, the notices about numbers outside are left out; strictly, the
first of them becomes the fault and ends the operation there. Both readings
commute with sequences of operations, so they are shown for a single report and
follow for everything that consults ranges.
-/

namespace Easing

variable {α β γ : Type}

/-- Whether a notice is about a number outside a range. -/
def Notice.isOutside : Notice α → Bool
  | outside .. => true
  | _ => false

namespace Outcome

/-- An outcome without notices about numbers outside. -/
def silenced (o : Outcome α β) : Outcome α β := ⟨o.notices.filter (!·.isOutside), o.result⟩

/-- The result after some notices, unless one of them is about a number outside:
the first such number is refused. -/
def refuse (result : Except (Fault α) β) : List (Notice α) → Outcome α β
  | [] => ⟨[], result⟩
  | .outside value start stop :: _ => ⟨[], .error (.exceeded value start stop)⟩
  | notice :: rest => ⟨notice :: (refuse result rest).notices, (refuse result rest).result⟩

/-- What becomes under an action of an outcome whose ranges give notice. -/
def under (o : Outcome α β) : ExceedAction → Outcome α β
  | .silent => o.silenced
  | .warn => o
  | .fail => refuse o.result o.notices

/-- Notices that are not about numbers outside are passed over. -/
theorem refuse_append {first : List (Notice α)} (h : first.any Notice.isOutside = false)
    (result : Except (Fault α) β) (second : List (Notice α)) :
    refuse result (first ++ second) =
      ⟨first ++ (refuse result second).notices, (refuse result second).result⟩ := by
  induction first with
  | nil => rfl
  | cons notice rest ih =>
      simp only [List.any_cons, Bool.or_eq_false_iff] at h
      cases notice with
      | outside value start stop => simp [Notice.isOutside] at h
      | _ => simp [refuse, ih h.2]

theorem refuse_of_not_outside {notices : List (Notice α)} (result : Except (Fault α) β)
    (h : notices.any Notice.isOutside = false) : refuse result notices = ⟨notices, result⟩ := by
  simpa [refuse] using refuse_append h result []

/-- The first number outside is refused, whatever comes after it. -/
theorem refuse_outside {before : List (Notice α)} (h : before.any Notice.isOutside = false)
    (result : Except (Fault α) β) (value start stop : α) (rest : List (Notice α)) :
    refuse result (before ++ .outside value start stop :: rest) =
      ⟨before, .error (.exceeded value start stop)⟩ := by
  rw [refuse_append h]
  simp [refuse]

/-- Notices about numbers outside have a first one among them. -/
theorem exists_first_outside {notices : List (Notice α)}
    (h : notices.any Notice.isOutside = true) :
    ∃ before value start stop rest, notices = before ++ .outside value start stop :: rest ∧
      before.any Notice.isOutside = false := by
  induction notices with
  | nil => simp at h
  | cons notice rest ih =>
      cases notice with
      | outside value start stop => exact ⟨[], value, start, stop, rest, rfl, rfl⟩
      | _ =>
          obtain ⟨before, value, start, stop, after, rfl, hbefore⟩ := ih h
          exact ⟨_ :: before, value, start, stop, after, rfl, hbefore⟩

/-- Outcomes without notices about numbers outside are the same under any action. -/
theorem under_of_not_outside {o : Outcome α β} (h : o.notices.any Notice.isOutside = false)
    (action : ExceedAction) : o.under action = o := by
  cases action with
  | silent =>
      have hkeep : o.notices.filter (!·.isOutside) = o.notices := by
        rw [List.filter_eq_self]
        intro notice hnotice
        rw [List.any_eq_false] at h
        simpa using h notice hnotice
      simp only [under, silenced, hkeep]
  | warn => rfl
  | fail => exact refuse_of_not_outside _ h

/-- Without reports the action does not matter. -/
theorem under_of_filter_eq_nil {o : Outcome α β} (h : o.notices.filter Notice.isOutside = [])
    (action : ExceedAction) : o.under action = o := by
  apply under_of_not_outside
  rw [List.any_eq_false]
  exact List.filter_eq_nil_iff.mp h

/-- Strictly, the first report becomes the fault. -/
theorem under_fail_of_filter_eq_cons {o : Outcome α β} {first : Notice α} {rest : List (Notice α)}
    (h : o.notices.filter Notice.isOutside = first :: rest) :
    ∃ value start stop, first = .outside value start stop ∧
      (o.under .fail).result = .error (.exceeded value start stop) := by
  have hmem : first ∈ o.notices.filter Notice.isOutside := h ▸ List.mem_cons_self
  have hany : o.notices.any Notice.isOutside = true :=
    List.any_eq_true.mpr ⟨first, List.mem_filter.mp hmem⟩
  obtain ⟨before, value, start, stop, after, hnotices, hbefore⟩ := exists_first_outside hany
  refine ⟨value, start, stop, ?_, ?_⟩
  · rw [hnotices, List.filter_append, List.filter_eq_nil_iff.mpr (List.any_eq_false.mp hbefore),
      List.nil_append] at h
    exact (List.cons.inj h).1.symm
  · rw [under, hnotices, refuse_outside hbefore]

@[simp] theorem under_pure (b : β) (action : ExceedAction) :
    (pure b : Outcome α β).under action = pure b := by
  cases action <;> rfl

@[simp] theorem under_ofEval (result : Except EvalFault β) (action : ExceedAction) :
    (ofEval result : Outcome α β).under action = ofEval result := by
  cases action <;> rfl

/-- Reading an outcome under an action commutes with sequences. -/
theorem under_bind (first : Outcome α β) (second : β → Outcome α γ) (action : ExceedAction) :
    (first >>= second).under action = first.under action >>= fun b => (second b).under action := by
  obtain ⟨notices, result⟩ := first
  cases action with
  | silent => cases result <;> simp [under, silenced]
  | warn => rfl
  | fail =>
      cases hany : notices.any Notice.isOutside with
      | true =>
          obtain ⟨before, value, start, stop, rest, rfl, hbefore⟩ := exists_first_outside hany
          cases result with
          | error f => simp only [under, bind_mk_error, refuse_outside hbefore]
          | ok b =>
              simp only [under, bind_mk_ok, bind_mk_error, List.append_assoc, List.cons_append,
                refuse_outside hbefore]
      | false =>
          cases result with
          | error f => simp only [under, bind_mk_error, refuse_of_not_outside _ hany]
          | ok b => simp only [under, bind_mk_ok, refuse_append hany, refuse_of_not_outside _ hany]

end Outcome

namespace Range

/-- The range with another action. -/
def under (action : ExceedAction) (r : Range α) : Range α := { r with onExceed := action }

theorem report_under (r : Range α) (action : ExceedAction) (x : α) :
    (r.under action).report x = ((r.under .warn).report x).under action := by
  cases action <;> rfl

variable [Scalar α]

/-- A range brings numbers to the same place under any action. -/
theorem check_under (r : Range α) (action : ExceedAction) (x : α) :
    (r.under action).check x = ((r.under .warn).check x).under action := by
  change (if x < r.low then _ else _) = Outcome.under (if x < r.low then _ else _) action
  split
  · rw [Outcome.under_bind, report_under]
    congr 1
    funext _
    change (if r.repeats.wrapsBelow then _ else _) =
      Outcome.under (if r.repeats.wrapsBelow then _ else _) action
    split
    · rw [Outcome.under_bind, Outcome.under_ofEval]
      simp only [Outcome.under_pure]
      rfl
    · rw [Outcome.under_pure]
      rfl
  · change (if r.high < x then _ else _) = Outcome.under (if r.high < x then _ else _) action
    split
    · rw [Outcome.under_bind, report_under]
      congr 1
      funext _
      change (if r.repeats.wrapsAbove then _ else _) =
        Outcome.under (if r.repeats.wrapsAbove then _ else _) action
      split
      · rw [Outcome.under_bind, Outcome.under_ofEval]
        simp only [Outcome.under_pure]
        rfl
      · rw [Outcome.under_pure]
        rfl
    · rw [Outcome.under_pure]

theorem normalize_under (r : Range α) (action : ExceedAction) (x : α) :
    (r.under action).normalize x = ((r.under .warn).normalize x).under action := by
  unfold normalize
  rw [Outcome.under_bind, check_under]
  simp only [Outcome.under_ofEval]
  rfl

end Range

/-- The link with another action for all its ranges. -/
def Link.under (action : ExceedAction) (link : Link α) : Link α :=
  { link with
    input := link.input.under action
    output := link.output.under action
    blend := link.blend.under action }

/-- A link answers the same under any action. -/
theorem Link.eval_under [Scalar α] (link : Link α) (action : ExceedAction) (x : α) :
    (link.under action).eval x = ((link.under .warn).eval x).under action := by
  unfold Link.eval
  rw [Outcome.under_bind]
  change (link.input.under action).normalize x >>= _ = _
  rw [Range.normalize_under]
  congr 1
  funext place
  cases htable : link.table with
  | none =>
      simp only [Link.under, htable]
      rw [Outcome.under_bind, Outcome.under_ofEval]
      congr 1
      funext y
      exact Range.check_under link.output action _
  | some table =>
      simp only [Link.under, htable]
      rw [Outcome.under_bind, Outcome.under_ofEval]
      congr 1
      funext y
      exact Range.check_under link.output action y

namespace Mapping

/-- The mapping with another action for all ranges of all its links. -/
def under (action : ExceedAction) (m : Mapping α) : Mapping α :=
  ⟨m.head.under action, m.targets.map (Link.under action)⟩

theorem target?_under (action : ExceedAction) (m : Mapping α) :
    (m.under action).target? = m.target?.map (under action) := by
  obtain ⟨head, targets⟩ := m
  cases targets <;> rfl

theorem atDepth?_under (action : ExceedAction) (depth : Nat) (m : Mapping α) :
    (m.under action).atDepth? depth = (m.atDepth? depth).map (under action) := by
  induction depth generalizing m with
  | zero => rfl
  | succ depth ih =>
      simp only [atDepth?, target?_under]
      cases m.target? with
      | none => rfl
      | some target => exact ih target

theorem replaceAt_under (action : ExceedAction) (other : Mapping α) (depth : Nat)
    (m : Mapping α) :
    replaceAt (other.under action) depth (m.under action) =
      (replaceAt other depth m).under action := by
  induction depth generalizing m with
  | zero => rfl
  | succ depth ih =>
      simp only [replaceAt, target?_under]
      cases m.target? with
      | none => rfl
      | some target =>
          simp only [Option.map_some, ih]
          rfl

/-- A mapping answers the same under any action, blended or not. -/
theorem map_under [Scalar α] (m : Mapping α) (action : ExceedAction) (x : α) (ratio : Option α) :
    (m.under action).map x ratio = ((m.under .warn).map x ratio).under action := by
  cases ratio with
  | none => exact Link.eval_under m.head action x
  | some ratio =>
      change (m.head.under action).eval x >>= _ =
        Outcome.under ((m.head.under .warn).eval x >>= _) action
      rw [Outcome.under_bind, Link.eval_under]
      congr 1
      funext y
      rw [target?_under, target?_under]
      cases m.target? with
      | none => exact (Outcome.under_of_not_outside rfl action).symm
      | some target =>
          change (m.head.blend.under action).normalize ratio >>= _ =
            Outcome.under ((m.head.blend.under .warn).normalize ratio >>= _) action
          rw [Outcome.under_bind, Range.normalize_under]
          congr 1
          funext share
          rw [Outcome.under_bind]
          change (target.head.under action).eval x >>= _ = _
          rw [Link.eval_under]
          simp only [Outcome.under_pure]
          rfl

end Mapping

end Easing
