import AegisPlatform.Healing.Strategies

/-! # What is enough for a proposal

No weight is negative and one signal is enough, so the healer proposes something iff one candidate
shares something with the broken selector. A candidate without an id can share a test-id, a text, a
class or the tag.
-/

namespace AegisPlatform.Healing
open Foundations Domain
set_option autoImplicit false
set_option maxHeartbeats 250000

section
variable (hints : SelectorHints) (e : DomElement) (sim : Similarity)

/-- One test-id holds the other. -/
def TestIdMatches : Prop :=
  ∃ wanted found, hints.testId = some wanted ∧ e.testId = some found ∧ wanted ≠ "" ∧ found ≠ "" ∧
    (isSubstring wanted found = true ∨ isSubstring found wanted = true)

/-- The texts are alike by more than a half. -/
def TextMatches : Prop :=
  ∃ wanted, hints.text = some wanted ∧ wanted ≠ "" ∧ e.text ≠ "" ∧ 5 / 10 < sim.ratio wanted e.text

def ClassMatches : Prop := ∃ c ∈ hints.classes, c ∈ e.classes

/-- The candidate shares a test-id, a text, a class or the tag with the selector. -/
def Shares : Prop :=
  TestIdMatches hints e ∨ TextMatches hints e sim ∨ ClassMatches hints e ∨ TagMatches hints e

theorem testIdSignal_pos_iff : 0 < (testIdSignal hints e).weight ↔ TestIdMatches hints e := by
  have hexact : (0 : ℚ) < wTestid := by norm_num [wTestid]
  have hhalf : (0 : ℚ) < wTestid * (1 / 2) := by norm_num [wTestid]
  unfold testIdSignal TestIdMatches
  split
  · next wanted found hwanted hfound =>
    rw [hwanted, hfound]
    split
    · next hempty =>
      refine ⟨fun h => absurd h (lt_irrefl 0), ?_⟩
      rintro ⟨_, _, ⟨⟩, ⟨⟩, hne, hne', -⟩
      exact absurd hempty (not_or.mpr ⟨hne, hne'⟩)
    · next hempty =>
      obtain ⟨hne, hne'⟩ := not_or.mp hempty
      split
      · next heq =>
        have hself : isSubstring wanted found = true := by
          rw [heq]
          exact decide_eq_true (List.infix_refl _)
        exact ⟨fun _ => ⟨wanted, found, rfl, rfl, hne, hne', Or.inl hself⟩, fun _ => hexact⟩
      · split
        · next hpart =>
          rw [Bool.or_eq_true] at hpart
          exact ⟨fun _ => ⟨wanted, found, rfl, rfl, hne, hne', hpart⟩, fun _ => hhalf⟩
        · next hpart =>
          refine ⟨fun h => absurd h (lt_irrefl 0), ?_⟩
          rintro ⟨_, _, ⟨⟩, ⟨⟩, -, -, hsub⟩
          exact absurd ((Bool.or_eq_true _ _).mpr hsub) hpart
  · next hmissing =>
    refine ⟨fun h => absurd h (lt_irrefl 0), ?_⟩
    rintro ⟨wanted, found, hwanted, hfound, -⟩
    exact absurd hfound (hmissing wanted found hwanted)

theorem textSignal_pos_iff : 0 < (textSignal hints e sim).weight ↔ TextMatches hints e sim := by
  have hweight : (0 : ℚ) < wText := by norm_num [wText]
  unfold textSignal TextMatches
  split
  · next wanted hwanted =>
    rw [hwanted]
    split
    · next hempty =>
      refine ⟨fun h => absurd h (lt_irrefl 0), ?_⟩
      rintro ⟨_, ⟨⟩, hne, hne', -⟩
      exact absurd hempty (not_or.mpr ⟨hne, hne'⟩)
    · next hempty =>
      obtain ⟨hne, hne'⟩ := not_or.mp hempty
      split
      · next hratio =>
        have hpos : 0 < sim.ratio wanted e.text := lt_trans (by norm_num) hratio
        exact ⟨fun _ => ⟨wanted, rfl, hne, hne', hratio⟩, fun _ => mul_pos hweight hpos⟩
      · next hratio =>
        refine ⟨fun h => absurd h (lt_irrefl 0), ?_⟩
        rintro ⟨_, ⟨⟩, -, -, hmore⟩
        exact absurd hmore hratio
  · next hmissing =>
    refine ⟨fun h => absurd h (lt_irrefl 0), ?_⟩
    rintro ⟨wanted, hwanted, -⟩
    rw [hmissing] at hwanted
    cases hwanted

theorem classSignal_pos_iff : 0 < (classSignal hints e).weight ↔ ClassMatches hints e := by
  have hweight : (0 : ℚ) < wClass := by norm_num [wClass]
  have hjaccard : 0 < jaccard hints.classes.toFinset e.classes.toFinset ↔ ClassMatches hints e := by
    unfold ClassMatches
    constructor
    · intro hpos
      have hne : (hints.classes.toFinset ∩ e.classes.toFinset).Nonempty := by
        rw [Finset.nonempty_iff_ne_empty]
        intro hempty
        unfold jaccard at hpos
        rw [hempty, Finset.card_empty, Nat.cast_zero, zero_div] at hpos
        exact lt_irrefl 0 hpos
      obtain ⟨c, hc⟩ := hne
      rw [Finset.mem_inter, List.mem_toFinset, List.mem_toFinset] at hc
      exact ⟨c, hc⟩
    · rintro ⟨c, hwanted, hfound⟩
      have hmem : c ∈ hints.classes.toFinset ∩ e.classes.toFinset := by
        rw [Finset.mem_inter, List.mem_toFinset, List.mem_toFinset]
        exact ⟨hwanted, hfound⟩
      have hunion := Finset.inter_subset_union hmem
      unfold jaccard
      exact div_pos (by exact_mod_cast Finset.card_pos.mpr ⟨c, hmem⟩)
        (by exact_mod_cast Finset.card_pos.mpr ⟨c, hunion⟩)
  rw [classSignal_weight, mul_pos_iff_of_pos_left hweight, hjaccard]

/-- A plain candidate scores iff it shares something. -/
theorem score_pos_iff (h : Plain e) : 0 < (score hints e sim).score ↔ Shares hints e sim := by
  have htestId := testIdSignal_nonneg hints e
  have htext := (textSignal_bounds hints e sim).1
  have hclass := (classSignal_bounds hints e).1
  have htag := (tagSignal_bounds hints e).1
  rw [score_plain hints e sim h, lt_min_iff, and_iff_left zero_lt_one]
  unfold Shares
  rw [← testIdSignal_pos_iff, ← textSignal_pos_iff, ← classSignal_pos_iff, ← tagSignal_pos_iff]
  constructor
  · intro hpos
    by_contra hnone
    simp only [not_or, not_lt] at hnone
    obtain ⟨htestId', htext', hclass', htag'⟩ := hnone
    linarith
  · rintro (hpos | hpos | hpos | hpos) <;> linarith

end

end AegisPlatform.Healing
