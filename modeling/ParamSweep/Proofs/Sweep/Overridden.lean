import ParamSweep.Proofs.Rule
import ParamSweep.Proofs.Sweep.Walk

/-! # Rules that are overridden

The runs of a sweep depend on its rules only through the number of runs of each assignment. So a
rule makes no difference to the walk if it never asks for any runs, or if one after it always does,
and nor does the default then.
-/

namespace ParamSweep.Sweep

variable {s t : Sweep}

theorem runs_congr (haxes : t.axes = s.axes) (hbundles : t.bundles = s.bundles)
    (h : ∀ a, t.repeatCount a = s.repeatCount a) : t.runs = s.runs := by
  have hsizes : t.sizes = s.sizes := by rw [sizes, haxes, hbundles, sizes]
  have hbindings (is : List Nat) : t.bindings is = s.bindings is := by
    rw [bindings, haxes, hbundles, bindings]
  have hassignment (sizes : List Nat) (c : Nat) : t.assignment sizes c = s.assignment sizes c := by
    rw [assignment, hbindings, assignment]
  have hruns : t.runsOf s.sizes = s.runsOf s.sizes := by
    funext c
    rw [runsOf, hassignment, h, runsOf]
  rw [runs_eq_flatMap, runs_eq_flatMap, combinationCount, hsizes, combinationCount, hruns]

/-- Sweeps over the same axes with the same number of runs of each assignment take the same walk. -/
theorem call_congr (haxes : t.axes = s.axes) (hbundles : t.bundles = s.bundles)
    (h : ∀ a, t.repeatCount a = s.repeatCount a) (n : Nat) : t.call n = s.call n := by
  rw [call_eq_getElem?, runs_congr haxes hbundles h, call_eq_getElem?]

/-- An assignment is run as often as the last rule says which asks for any runs of it, or as often
as the default says. So the walk stays what it is if a rule that asks for none is inserted at any
place, and if one that always asks for some loses the rules before it, or the default is changed. -/
theorem last_rule_decides (s : Sweep) :
    (∀ a n, s.repeatCount a = n ↔ Rule.Decided s.defaultRepeats a s.rules n) ∧
    (∀ before after rule, s.rules = before ++ after → (∀ a, ¬ Rule.Asks rule a) →
      ∀ n, call { s with rules := before ++ rule :: after } n = s.call n) ∧
    ∀ before rule after, s.rules = before ++ rule :: after → (∀ a, Rule.Asks rule a) →
      (∀ n, call { s with rules := rule :: after } n = s.call n) ∧
        ∀ d n, (s.setDefaultRepeats d).call n = s.call n := by
  refine ⟨fun a n => Rule.count_eq_iff s.defaultRepeats, ?inserted, ?overridden⟩
  case inserted =>
    intro before after rule hrules hnone
    refine call_congr rfl rfl fun a => ?_
    rw [repeatCount, repeatCount, Rule.count_insert _ (hnone a), hrules]
  case overridden =>
    intro before rule after hrules hasks
    have hcount (d : UInt64) (a : Assignment) :
        s.repeatCount a = Rule.count d (rule :: after) a := by
      rw [repeatCount, hrules, Rule.count_of_asks _ (hasks a) d]
    constructor
    · exact call_congr rfl rfl fun a => (hcount s.defaultRepeats a).symm
    · refine fun d => call_congr rfl rfl fun a => ?_
      rw [repeatCount, setDefaultRepeats, hrules, Rule.count_of_asks _ (hasks a) d, hcount d]

/-- A rule that always asks for three runs overrides one that asks for two, and is followed by one
that never asks for any. -/
theorem last_rule_decides_of_zero :
    let always : Rule := (⟨none, 3⟩ : ConditionalCount).rule
    let never : Rule := (⟨none, 0⟩ : ConditionalCount).rule
    let two : Rule := (⟨some ⟨"x", .lt, .int 5⟩, 2⟩ : ConditionalCount).rule
    let s : Sweep := { rules := [two, always], axes := [⟨"x", [.int 1, .int 9]⟩] }
    s.rules = [two, always] ∧ (∀ a, Rule.Asks always a) ∧ (∀ a, ¬ Rule.Asks never a) ∧
      ∀ n, call { s with rules := [two, always, never] } n = s.call n ∧
        call { s with rules := [always] } n = s.call n ∧
          (s.setDefaultRepeats 0).call n = s.call n := by
  intro always never two s
  have halways (a : Assignment) : Rule.Asks always a := ⟨3, rfl, by decide⟩
  have hnever (a : Assignment) : ¬ Rule.Asks never a := by
    rintro ⟨n, hn, hpos⟩
    cases hn
    exact absurd hpos (by decide)
  obtain ⟨-, hinserted, hoverridden⟩ := last_rule_decides s
  obtain ⟨hremoved, hdefault⟩ := hoverridden [two] always [] rfl halways
  exact ⟨rfl, halways, hnever, fun n =>
    ⟨hinserted [two, always] [] never rfl hnever n, hremoved n, hdefault 0 n⟩⟩

end ParamSweep.Sweep
