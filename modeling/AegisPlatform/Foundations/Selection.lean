import Mathlib.Data.List.MinMax

/-! # The first best of a list

`max(items, key=f)` keeps the first of several best items. A property of the choice is settled
without choosing: every item that lacks it is beaten by one that has it.
-/

namespace AegisPlatform.Foundations
set_option autoImplicit false
set_option maxHeartbeats 250000

section
variable {α β : Type} [DecidableEq α] [LinearOrder β] {f : α → β} {l : List α} {best : α}

/-- `a` is chosen before `b`: by a larger key, or by its place among equal keys. -/
def Beats (f : α → β) (l : List α) (a b : α) : Prop :=
  f b < f a ∨ (f b = f a ∧ l.idxOf a < l.idxOf b)

/-- Nothing beats the choice. -/
theorem not_beats_argmax (hbest : best ∈ l.argmax f) {a : α} (ha : a ∈ l) :
    ¬ Beats f l a best := by
  rintro (hless | ⟨hsame, hbefore⟩)
  · exact absurd (List.le_of_mem_argmax ha hbest) (not_le.mpr hless)
  · have hfirst := List.index_of_argmax hbest ha hsame.le
    omega

/-- The choice beats everything else. -/
theorem argmax_beats (hbest : best ∈ l.argmax f) {b : α} (hb : b ∈ l) (hne : b ≠ best) :
    Beats f l best b := by
  rcases lt_or_eq_of_le (List.le_of_mem_argmax hb hbest) with hless | hsame
  · exact Or.inl hless
  · have hfirst := List.index_of_argmax hbest hb hsame.ge
    have hplace : l.idxOf best ≠ l.idxOf b := by
      intro heq
      exact hne ((List.idxOf_inj (List.argmax_mem hbest)).mp heq).symm
    exact Or.inr ⟨hsame, lt_of_le_of_ne hfirst hplace⟩

theorem argmax_iff_beaten {P : α → Prop} (hbest : best ∈ l.argmax f) :
    P best ↔ ∀ other ∈ l, ¬ P other → ∃ own ∈ l, P own ∧ Beats f l own other := by
  have hmem : best ∈ l := List.argmax_mem hbest
  constructor
  · intro hP other hother hnot
    have hne : other ≠ best := by
      rintro rfl
      exact hnot hP
    exact ⟨best, hmem, hP, argmax_beats hbest hother hne⟩
  · intro hbeaten
    by_contra hnot
    obtain ⟨own, hown, -, hbeats⟩ := hbeaten best hmem hnot
    exact not_beats_argmax hbest hown hbeats

/-- The first item is chosen if nothing exceeds it. -/
theorem argmax_head {a : α} (h : ∀ b ∈ l, f b ≤ f a) : (a :: l).argmax f = some a := by
  obtain ⟨best, hbest⟩ : ∃ best, (a :: l).argmax f = some best :=
    Option.ne_none_iff_exists'.mp fun hnone =>
      absurd (List.argmax_eq_none.mp hnone) (List.cons_ne_nil a l)
  have hfirst : best = a := by
    refine (argmax_iff_beaten (P := fun b => b = a) hbest).mpr fun b hb hne => ?_
    refine ⟨a, List.mem_cons_self, rfl, ?_⟩
    rcases lt_or_eq_of_le (h b ((List.mem_cons.mp hb).resolve_left hne)) with hless | hsame
    · exact Or.inl hless
    · rw [Beats, List.idxOf_cons_self, List.idxOf_cons_ne l (Ne.symm hne)]
      exact Or.inr ⟨hsame, Nat.succ_pos _⟩
  rw [hbest, hfirst]

end

end AegisPlatform.Foundations
