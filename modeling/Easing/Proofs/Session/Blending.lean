import Easing.Proofs.Mapping.Blending
import Easing.Proofs.Session.Commutation

/-! # Blending in every state of a session

A blend range is made like an output range: it holds the ratios outside it, and the only
bounds that reach it are accepted ones. Neither a change of ranges nor a change of target
reaches it at all. So in exact arithmetic, and unless ratios are refused, every mapping
of a session blends into its target.
-/

namespace Easing

section Changes

variable {α : Type} [Scalar α] [Numeral α]

/-- A link whose blend range holds ratios between accepted bounds. -/
structure Link.HoldsRatios (link : Link α) : Prop where
  held : link.blend.repeats = .none
  bounds : Range.checkBounds link.blend.start link.blend.stop = .ok ()

/-- Links are made so, and another blend range is accepted first. -/
theorem Link.holdsRatios_invariant [Scalar.HasUnit α] :
    Link.Invariant (α := α) Link.HoldsRatios where
  compiled h := by
    obtain ⟨_, _, _, _, _, _, hmake⟩ := h.exists_make
    obtain ⟨_, _, rfl⟩ := Link.result_make_eq_ok_iff.mp hmake
    exact ⟨rfl, Scalar.HasUnit.checkBounds_zero_one⟩
  withDomain _ h _ _ := ⟨h.held, h.bounds⟩
  withBlend h hblend := by
    unfold Range.withBounds Range.make at hblend
    obtain ⟨_, hcheck, hblend⟩ := Except.bind_eq_ok_iff.mp hblend
    cases hblend
    exact ⟨h.held, hcheck⟩

/-- No change but its own reaches the blend range of a mapping, and a change of ranges
none of those behind it either. -/
theorem Mapping.ChangesTo.blend {m changed : Mapping α} {change : Change α}
    (h : m.ChangesTo change changed)
    (hchange : ∀ start stop, change ≠ .setBlendRange start stop) :
    changed.head.blend = m.head.blend ∧ ∀ d repeats, change = .setRange d repeats →
      changed.links.map Link.blend = m.links.map Link.blend := by
  cases h with
  | @setRange d repeats _ =>
      refine ⟨rfl, fun _ _ _ => ?_⟩
      change (m.links.map (·.withDomain d repeats)).map Link.blend = _
      rw [List.map_map]
      rfl
  | setBlendRange _ => exact absurd rfl (hchange _ _)
  | setTarget _ => exact ⟨rfl, fun _ _ h => nomatch h⟩

namespace Session

variable {s : Session α} {place : Place} {entry : Entry α} {m : Mapping α}

/-- The same for the mapping at a place, whether the change is accepted or refused. -/
theorem blend_act_change (hfind : s.find? place = some (entry, m)) {change : Change α}
    (hchange : ∀ start stop, change ≠ .setBlendRange start stop) :
    ∃ entry' m', (s.act (.change place change)).2.find? place = some (entry', m') ∧
      m'.head.blend = m.head.blend ∧ ∀ d repeats, change = .setRange d repeats →
        m'.links.map Link.blend = m.links.map Link.blend := by
  have hentries := changed_entries s entry.maker m change
  have hsame : (s.changed entry.maker m change).2.find? place = some (entry, m) := by
    rw [find?_congr hentries, hfind]
  rw [act_change_of_some hfind]
  cases hresult : (s.changed entry.maker m change).1.result with
  | error f =>
      rw [(keep_of_error hresult _).1]
      exact ⟨entry, m, hsame, rfl, fun _ _ _ => rfl⟩
  | ok changed =>
      rw [keep_of_ok hresult]
      exact ⟨_, changed, find?_put_replaceAt hsame changed, (changed_result hresult).blend hchange⟩

/-- So a mapping keeps its blend range through any such changes. -/
theorem blend_after_changes {changes : List (Change α)}
    (hchanges : ∀ change ∈ changes, ∀ start stop, change ≠ .setBlendRange start stop)
    (hfind : s.find? place = some (entry, m)) :
    ∃ entry' m', (s.after (changes.map (.change place))).find? place = some (entry', m') ∧
      m'.head.blend = m.head.blend := by
  induction changes generalizing s entry m with
  | nil => exact ⟨entry, m, hfind, rfl⟩
  | cons change rest ih =>
      obtain ⟨hchange, hrest⟩ := List.forall_mem_cons.mp hchanges
      obtain ⟨_, _, hfind', hblend, _⟩ := blend_act_change hfind hchange
      obtain ⟨entry', m', hlast, hblend'⟩ := ih hrest hfind'
      exact ⟨entry', m', hlast, hblend'.trans hblend⟩

end Session

end Changes

section Blends

variable [Elementary ℚ]

/-- The values of a mapping move to those of its target with the ratio. -/
structure Mapping.BlendsInto (m target : Mapping ℚ) : Prop where
  /-- They are the mean of both, by the share of the ratio. -/
  mean : ∀ x ratio, (m.map x (some ratio)).result = do
    let y ← (m.map x none).result
    let z ← (target.map x none).result
    return (1 - Rational.share m.head.blend ratio) * y + Rational.share m.head.blend ratio * z
  /-- A ratio that is at the start, or beyond it, leaves the value of the mapping. -/
  before : ∀ x ratio, Rational.NotBehind m.head.blend m.head.blend.start ratio →
    (m.map x (some ratio)).result = do
      let y ← (m.map x none).result
      let _ ← (target.map x none).result
      return y
  /-- A ratio that is at the stop, or beyond it, leaves that of the target. -/
  arrived : ∀ x ratio, Rational.NotBehind m.head.blend ratio m.head.blend.stop →
    (m.map x (some ratio)).result = do
      let _ ← (m.map x none).result
      (target.map x none).result
  /-- On the way there is no turning back. -/
  steady : ∀ x y z, (m.map x none).result = .ok y → (target.map x none).result = .ok z →
    ∀ a b, Rational.NotBehind m.head.blend b a →
      ∃ v w, (m.map x (some a)).result = .ok v ∧ (m.map x (some b)).result = .ok w ∧
        (y ≤ z → y ≤ v ∧ v ≤ w ∧ w ≤ z) ∧ (z ≤ y → z ≤ w ∧ w ≤ v ∧ v ≤ y)
  /-- Nor does the way leave a common output range. -/
  within : target.head.output.start = m.head.output.start →
    target.head.output.stop = m.head.output.stop →
    ∀ x ratio v, (m.map x (some ratio)).result = .ok v →
      m.head.output.low ≤ v ∧ v ≤ m.head.output.high

theorem Mapping.blendsInto {m target : Mapping ℚ} (hratios : m.head.TakesRatios)
    (htarget : m.target? = some target)
    (houtput : m.head.output.start ≠ m.head.output.stop) : m.BlendsInto target := by
  have hmean := result_map_of_target hratios htarget
  constructor
  case mean => exact hmean
  case before =>
    intro x ratio hbefore
    simp only [hmean, Rational.share_of_start_notBehind hbefore, Rational.mix_zero]
  case arrived =>
    intro x ratio harrived
    simp only [hmean, Rational.share_of_notBehind_stop harrived, Rational.mix_one, bind_pure]
  case steady =>
    intro x y z hy hz a b hbehind
    have hvalue (ratio : ℚ) : (m.map x (some ratio)).result =
        .ok (Rational.mix (Rational.share m.head.blend ratio) y z) := by
      rw [hmean, hy, hz]
      rfl
    obtain ⟨hstart, _⟩ := Rational.share_mem m.head.blend a
    obtain ⟨_, hstop⟩ := Rational.share_mem m.head.blend b
    have hshare := Rational.share_mono hbehind
    refine ⟨_, _, hvalue a, hvalue b, fun hle => ⟨?_, ?_, ?_⟩, fun hle => ⟨?_, ?_, ?_⟩⟩
    · simpa only [Rational.mix_zero] using Rational.mix_mono hstart hle
    · exact Rational.mix_mono hshare hle
    · simpa only [Rational.mix_one] using Rational.mix_mono hstop hle
    · simpa only [Rational.mix_one] using Rational.mix_anti hstop hle
    · exact Rational.mix_anti hshare hle
    · simpa only [Rational.mix_zero] using Rational.mix_anti hstart hle
  case within =>
    intro hstart hstop x ratio v hv
    rw [hmean, Except.bind_eq_ok_iff] at hv
    obtain ⟨y, hy, hv⟩ := hv
    obtain ⟨z, hz, hv⟩ := Except.bind_eq_ok_iff.mp hv
    obtain rfl := Except.ok.inj hv
    have hwithin := Rational.within_of_eval (by rwa [hstart, hstop]) hz
    rw [Range.low, Range.high, hstart, hstop] at hwithin
    exact Rational.mix_mem (Rational.share_mem _ _) (Rational.within_of_eval houtput hy) hwithin

end Blends

namespace Session

/-- In every state, unless ratios are refused, a mapping blends into its target: its values
are the mean of both by the share of the ratio in the blend range, in either order of the
bounds. Without a target a ratio changes nothing. Changes of ranges and of the target, even
those that are refused, leave the blend range as it is, and a change of ranges those of all
targets too. -/
theorem mappings_blend [Elementary ℚ] [Numeral ℚ] {s : Session ℚ} (hs : s.Reachable)
    {place : Place} {entry : Entry ℚ} {m : Mapping ℚ} (hfind : s.find? place = some (entry, m)) :
    (m.head.blend.onExceed ≠ .fail → ∀ target, m.target? = some target → m.BlendsInto target) ∧
      (m.target? = none → ∀ x ratio, (m.map x (some ratio)).result = (m.map x none).result) ∧
      (∀ changes : List (Change ℚ),
        (∀ change ∈ changes, ∀ start stop, change ≠ .setBlendRange start stop) →
        ∃ entry' m', (s.after (changes.map (.change place))).find? place = some (entry', m') ∧
          m'.head.blend = m.head.blend) ∧
      ∀ d repeats, ∃ entry' m',
        (s.act (.change place (.setRange d repeats))).2.find? place = some (entry', m') ∧
          m'.links.map Link.blend = m.links.map Link.blend := by
  refine ⟨fun haction target htarget => ?_, fun htarget x ratio => ?_, fun changes h => ?_,
    fun d repeats => ?_⟩
  case refine_1 =>
    obtain ⟨hratios, hdomain⟩ := hs.sound_head Link.holdsRatios_invariant hfind
    exact Mapping.blendsInto
      ⟨Rational.checkBounds_eq_ok_iff.mp hratios.bounds, hratios.held, haction⟩ htarget
      (Rational.checkBounds_eq_ok_iff.mp (Domain.check_eq_ok_iff.mp hdomain).2)
  case refine_2 => exact Mapping.result_map_of_no_target htarget x ratio
  case refine_3 => exact blend_after_changes h hfind
  case refine_4 =>
    have hchange : ∀ start stop, Change.setRange d repeats ≠ .setBlendRange start stop :=
      fun _ _ h => nomatch h
    obtain ⟨entry', m', hfind', _, hblends⟩ := blend_act_change hfind hchange
    exact ⟨entry', m', hfind', hblends d repeats rfl⟩

/-- Ratios that count from three down to one, given notice of when they are outside. Three
more changes, one of which is refused, leave the blend range so. -/
theorem mappings_blend_downwards :
    let _ := linear
    let _ := fractions
    ∃ (s : Session ℚ) (entry entry' : Entry ℚ) (m target m' : Mapping ℚ),
      s.Reachable ∧ s.find? ⟨"ramp", 0⟩ = some (entry, m) ∧ m.target? = some target ∧
        m.head.blend = ⟨3, 1, .none, .warn⟩ ∧
        (m.map (5 / 2) none).result = .ok (5 / 2) ∧
        (target.map (5 / 2) none).result = .ok (-5 / 2) ∧
        (m.map (5 / 2) (some 4)).result = .ok (5 / 2) ∧
        (m.map (5 / 2) (some (5 / 2))).result = .ok ((1 - 1 / 4) * (5 / 2) + 1 / 4 * (-5 / 2)) ∧
        (m.map (5 / 2) (some 0)).result = .ok (-5 / 2) ∧
        (s.after ([.setRange ⟨7, 1, 0, 2⟩ none, .setRange ⟨2, 2, 0, 1⟩ none,
          .setTarget "constant 3" (some .low)].map (.change ⟨"ramp", 0⟩))).find? ⟨"ramp", 0⟩ =
            some (entry', m') ∧
        m'.head.blend = ⟨3, 1, .none, .warn⟩ := by
  let _ := linear
  let _ := fractions
  let s : Session ℚ := (start ⟨⟨.high, .warn, none⟩, .ofSeed 0⟩ ⟨.standard, .ofSeed 0⟩).after
    [.compile .own "ramp" "x" none,
      .change ⟨"ramp", 0⟩ (.setRange ⟨0, 10, 5, -5⟩ none),
      .change ⟨"ramp", 0⟩ (.setTarget "invert" (some .low)),
      .change ⟨"ramp", 0⟩ (.setBlendRange 3 1)]
  have hs : s.Reachable := ⟨_, _, _, rfl⟩
  have hkernel : (s.find? ⟨"ramp", 0⟩).bind (fun found => found.2.target?.map fun target =>
      (found.2.head.blend, (found.2.map (5 / 2) none).result,
        (target.map (5 / 2) none).result)) =
          some (⟨3, 1, .none, .warn⟩, .ok (5 / 2), .ok (-5 / 2)) := by
    decide +kernel
  obtain ⟨⟨entry, m⟩, hfind, hm⟩ := Option.bind_eq_some_iff.mp hkernel
  obtain ⟨target, htarget, hm⟩ := Option.map_eq_some_iff.mp hm
  simp only [Prod.mk.injEq] at hm
  obtain ⟨hblend, hy, hz⟩ := hm
  obtain ⟨hblends, _, hkept, _⟩ := mappings_blend hs hfind
  have hinto := hblends (by rw [hblend]; decide) target htarget
  obtain ⟨entry', m', hfind', hblend'⟩ := hkept
    [.setRange ⟨7, 1, 0, 2⟩ none, .setRange ⟨2, 2, 0, 1⟩ none,
      .setTarget "constant 3" (some .low)] (by simp)
  have hquarter : Rational.share m.head.blend (5 / 2) = 1 / 4 := by
    rw [hblend]
    decide +kernel
  refine ⟨s, entry, entry', m, target, m', hs, hfind, htarget, hblend, hy, hz, ?_, ?_, ?_,
    hfind', hblend'.trans hblend⟩
  · rw [hinto.before _ _ (by rw [hblend]; exact .inr ⟨by norm_num, by norm_num⟩), hy, hz]
    rfl
  · rw [hinto.mean, hy, hz, hquarter]
    rfl
  · rw [hinto.arrived _ _ (by rw [hblend]; exact .inr ⟨by norm_num, by norm_num⟩), hy, hz]
    rfl

end Session

end Easing
