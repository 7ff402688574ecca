import Easing.Mapping.Domain

/-! # The links of a mapping

A mapping is determined by the list of its links. Going to a target drops links
from the front, and replacing a target keeps the links before it, so facts about
target chains of any depth are facts about lists.
-/

namespace Easing.Mapping

variable {α : Type}

@[simp] theorem length_links (m : Mapping α) : m.links.length = m.targets.length + 1 := rfl

theorem ext_links {m m' : Mapping α} (h : m.links = m'.links) : m = m' := by
  cases m
  cases m'
  simp only [links, List.cons.injEq] at h
  obtain ⟨rfl, rfl⟩ := h
  rfl

theorem links_target? {m target : Mapping α} (h : m.target? = some target) :
    target.links = m.targets := by
  obtain ⟨head, targets⟩ := m
  cases targets with
  | nil => simp [target?] at h
  | cons next more =>
      simp only [target?, Option.some.injEq] at h
      subst h
      rfl

theorem target?_eq_none_iff {m : Mapping α} : m.target? = none ↔ m.targets = [] := by
  obtain ⟨head, targets⟩ := m
  cases targets <;> simp [target?]

/-- The target a number of links away has the links from there on. -/
theorem links_atDepth? {depth : Nat} {m target : Mapping α}
    (h : m.atDepth? depth = some target) : target.links = m.links.drop depth := by
  induction depth generalizing m with
  | zero =>
      simp only [atDepth?, Option.some.injEq] at h
      subst h
      rfl
  | succ depth ih =>
      simp only [atDepth?, Option.bind_eq_some_iff] at h
      obtain ⟨next, hnext, htarget⟩ := h
      rw [ih htarget, links_target? hnext]
      rfl

theorem atDepth?_eq_some_iff {depth : Nat} {m target : Mapping α} :
    m.atDepth? depth = some target ↔ target.links = m.links.drop depth := by
  refine ⟨links_atDepth?, ?_⟩
  induction depth generalizing m with
  | zero =>
      intro h
      have heq : target = m := ext_links h
      rw [heq]
      rfl
  | succ depth ih =>
      intro h
      simp only [atDepth?]
      cases hnext : m.target? with
      | none =>
          rw [target?_eq_none_iff] at hnext
          simp [links, hnext] at h
      | some next =>
          rw [Option.bind_some]
          apply ih
          rw [h, links_target? hnext]
          rfl

/-- The first link of the target a number of links away is the link there. -/
theorem getElem?_links_of_atDepth? {depth : Nat} {m target : Mapping α}
    (h : m.atDepth? depth = some target) (j : Nat) :
    m.links[depth + j]? = target.links[j]? := by
  rw [links_atDepth? h, List.getElem?_drop]

theorem atDepth?_of_getElem? {depth : Nat} {m : Mapping α} {link : Link α}
    (h : m.links[depth]? = some link) :
    ∃ target, m.atDepth? depth = some target ∧ target.head = link := by
  obtain ⟨hlt, hget⟩ := List.getElem?_eq_some_iff.mp h
  refine ⟨⟨link, m.links.drop (depth + 1)⟩, ?_, rfl⟩
  rw [atDepth?_eq_some_iff, ← hget]
  exact (List.drop_eq_getElem_cons hlt).symm

theorem lt_length_links_of_atDepth? {depth : Nat} {m target : Mapping α}
    (h : m.atDepth? depth = some target) : depth < m.links.length := by
  have hlength := congrArg List.length (links_atDepth? h)
  simp only [length_links, List.length_drop] at hlength ⊢
  omega

/-- Replacing a target keeps the links before it. -/
theorem links_replaceAt {depth : Nat} {m target : Mapping α} (other : Mapping α)
    (h : m.atDepth? depth = some target) :
    (replaceAt other depth m).links = m.links.take depth ++ other.links := by
  induction depth generalizing m with
  | zero => rfl
  | succ depth ih =>
      simp only [atDepth?, Option.bind_eq_some_iff] at h
      obtain ⟨next, hnext, htarget⟩ := h
      simp only [replaceAt, hnext]
      change m.head :: (replaceAt other depth next).links = _
      rw [ih htarget, links_target? hnext]
      rfl

/-- The links of a target are links of the mapping. -/
theorem mem_links_of_atDepth? {depth : Nat} {m target : Mapping α} {link : Link α}
    (h : m.atDepth? depth = some target) (hlink : link ∈ target.links) : link ∈ m.links := by
  rw [links_atDepth? h] at hlink
  exact List.mem_of_mem_drop hlink

theorem head_mem_links (m : Mapping α) : m.head ∈ m.links := List.mem_cons_self

theorem mem_links_replaceAt {depth : Nat} {m target other : Mapping α} {link : Link α}
    (h : m.atDepth? depth = some target) (hlink : link ∈ (replaceAt other depth m).links) :
    link ∈ m.links ∨ link ∈ other.links := by
  rw [links_replaceAt other h, List.mem_append] at hlink
  exact hlink.imp_left List.mem_of_mem_take

end Easing.Mapping
