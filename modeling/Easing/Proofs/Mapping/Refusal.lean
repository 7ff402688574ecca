import Easing.Mapping.Domain

/-! # Refused bounds

Two bounds are refused for one of two reasons, and a domain for the first reason
that there is, where the input range comes before the output range. There is no
other reason to refuse a domain, whatever the mapping is that it is meant for.
-/

namespace Easing

variable {α : Type} [Scalar α]

namespace Range

/-- Why two bounds are refused: one of them is not finite, or they are equal. -/
inductive Refuses (start stop : α) : Fault α → Prop
  | notFinite (h : Scalar.isFinite start = false ∨ Scalar.isFinite stop = false) :
      Refuses start stop (.boundsNotFinite start stop)
  | equal (hstart : Scalar.isFinite start = true) (hstop : Scalar.isFinite stop = true)
      (h : (start == stop) = true) : Refuses start stop (.boundsEqual start stop)

variable {start stop : α}

theorem checkBounds_eq_error_iff {f : Fault α} :
    checkBounds start stop = .error f ↔ Refuses start stop f := by
  unfold checkBounds
  constructor
  · intro h
    split at h
    next hfinite =>
      cases h
      rw [Bool.not_eq_true', Bool.and_eq_false_iff] at hfinite
      exact .notFinite hfinite
    next hfinite =>
      rw [Bool.not_eq_true', Bool.not_eq_false, Bool.and_eq_true] at hfinite
      split at h
      next hequal =>
        cases h
        exact .equal hfinite.1 hfinite.2 hequal
      next => cases h
  · rintro (h | ⟨hstart, hstop, h⟩)
    · rcases h with h | h <;> simp [h]
    · simp [hstart, hstop, h]

theorem exists_refuses_iff :
    (∃ f, Refuses start stop f) ↔
      Scalar.isFinite start = false ∨ Scalar.isFinite stop = false ∨ (start == stop) = true := by
  constructor
  · rintro ⟨_, (hstart | hstop) | ⟨_, _, hequal⟩⟩
    · exact .inl hstart
    · exact .inr (.inl hstop)
    · exact .inr (.inr hequal)
  · intro h
    by_cases hfinite : Scalar.isFinite start = true ∧ Scalar.isFinite stop = true
    · exact ⟨_, .equal hfinite.1 hfinite.2 (by simpa [hfinite] using h)⟩
    · refine ⟨_, .notFinite ?_⟩
      rw [← Bool.and_eq_false_iff, ← Bool.not_eq_true, Bool.and_eq_true]
      exact hfinite

theorem checkBounds_eq_ok_iff :
    checkBounds start stop = .ok () ↔ ¬ ∃ f, Refuses start stop f := by
  simp only [← checkBounds_eq_error_iff]
  cases checkBounds start stop with
  | error f => simp
  | ok _ => simp

theorem make_of_ok (h : checkBounds start stop = .ok ()) (repeats : RepeatPolicy)
    (onExceed : ExceedAction) :
    make start stop repeats onExceed = .ok ⟨start, stop, repeats, onExceed⟩ := by
  simp only [make, h]
  rfl

theorem make_of_error {f : Fault α} (h : checkBounds start stop = .error f)
    (repeats : RepeatPolicy) (onExceed : ExceedAction) :
    make start stop repeats onExceed = .error f := by
  simp only [make, h]
  rfl

end Range

namespace Domain

/-- Why a domain is refused. The output range matters only if the input range is
accepted. -/
inductive Refused (d : Domain α) : Fault α → Prop
  | input {f : Fault α} (h : Range.Refuses d.inputStart d.inputStop f) : Refused d f
  | output {f : Fault α} (haccepted : ¬ ∃ f, Range.Refuses d.inputStart d.inputStop f)
      (h : Range.Refuses d.outputStart d.outputStop f) : Refused d f

variable {d : Domain α}

theorem check_eq_error_iff {f : Fault α} : d.check = .error f ↔ d.Refused f := by
  unfold check
  cases hinput : Range.checkBounds d.inputStart d.inputStop with
  | error first =>
      have hrefused := Range.checkBounds_eq_error_iff.mp hinput
      constructor
      · intro h
        cases h
        exact .input hrefused
      · rintro (h | ⟨haccepted, _⟩)
        · exact hinput.symm.trans (Range.checkBounds_eq_error_iff.mpr h)
        · exact absurd ⟨first, hrefused⟩ haccepted
  | ok _ =>
      have haccepted := Range.checkBounds_eq_ok_iff.mp hinput
      change Range.checkBounds d.outputStart d.outputStop = .error f ↔ _
      rw [Range.checkBounds_eq_error_iff]
      constructor
      · exact .output haccepted
      · rintro (h | ⟨_, h⟩)
        · exact absurd ⟨f, h⟩ haccepted
        · exact h

theorem exists_refused_iff :
    (∃ f, d.Refused f) ↔
      (∃ f, Range.Refuses d.inputStart d.inputStop f) ∨
        ∃ f, Range.Refuses d.outputStart d.outputStop f := by
  constructor
  · rintro ⟨f, h | ⟨_, h⟩⟩
    · exact .inl ⟨f, h⟩
    · exact .inr ⟨f, h⟩
  · intro h
    by_cases haccepted : ∃ f, Range.Refuses d.inputStart d.inputStop f
    · obtain ⟨f, hinput⟩ := haccepted
      exact ⟨f, .input hinput⟩
    · obtain ⟨f, houtput⟩ := h.resolve_left haccepted
      exact ⟨f, .output haccepted houtput⟩

end Domain

end Easing
