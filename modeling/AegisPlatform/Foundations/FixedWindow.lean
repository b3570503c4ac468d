import Mathlib.Algebra.Order.Group.Defs
import Mathlib.Data.List.Basic
import Mathlib.Tactic.Common

/-! # A log of events in consecutive epochs

Each event has its time and the number of the epoch it fell in. `Follows window` is what two
events of one log have in common when a new epoch opens only after every event of the one before
and at least `window` after its first: the epoch two further on is more than `window` later. So an
interval of length `window` meets two epochs at most, and `card_window_le` bounds the events in it
by twice the bound of one epoch.
-/

namespace AegisPlatform.Foundations
set_option autoImplicit false
set_option maxHeartbeats 250000

/-- What is read of an event: when it happened, and in which epoch. -/
structure Stamps (α T : Type) where
  epoch : α → ℕ
  time : α → T

namespace Stamps
variable {α T : Type} (st : Stamps α T)

def inEpoch (n : ℕ) (log : List α) : List α :=
  log.filter fun r => st.epoch r == n

theorem mem_inEpoch {n : ℕ} {log : List α} {r : α} :
    r ∈ st.inEpoch n log ↔ r ∈ log ∧ st.epoch r = n := by
  simp [inEpoch]

theorem inEpoch_snoc_self {n : ℕ} {new : α} (log : List α) (h : st.epoch new = n) :
    st.inEpoch n (log ++ [new]) = st.inEpoch n log ++ [new] := by
  simp [inEpoch, List.filter_append, h]

theorem inEpoch_snoc_of_ne {n : ℕ} {new : α} (log : List α) (h : st.epoch new ≠ n) :
    st.inEpoch n (log ++ [new]) = st.inEpoch n log := by
  simp [inEpoch, List.filter_append, h]

theorem inEpoch_eq_nil {n : ℕ} {log : List α} (h : ∀ r ∈ log, st.epoch r < n) :
    st.inEpoch n log = [] := by
  unfold inEpoch
  rw [List.filter_eq_nil_iff]
  intro r hr heq
  have := h r hr
  have : st.epoch r = n := by simpa using heq
  omega

/-- An event of a grown log is an old one at its old place, or the new one at the end. -/
theorem inEpoch_snoc_cases {n k : ℕ} {log : List α} {new r : α}
    (h : (st.inEpoch n (log ++ [new]))[k]? = some r) :
    (st.inEpoch n log)[k]? = some r ∨
      st.epoch new = n ∧ r = new ∧ k = (st.inEpoch n log).length := by
  by_cases hn : st.epoch new = n
  · rw [inEpoch_snoc_self st log hn, List.getElem?_append] at h
    split at h
    · exact Or.inl h
    · next hk =>
      right
      have hzero : k - (st.inEpoch n log).length = 0 := by
        by_contra hne
        rw [List.getElem?_eq_none (by simp; omega)] at h
        cases h
      rw [hzero] at h
      exact ⟨hn, (Option.some.inj h).symm, by omega⟩
  · rw [inEpoch_snoc_of_ne st log hn] at h
    exact Or.inl h

theorem length_two_epochs {p : ℕ} {log : List α}
    (h : ∀ r ∈ log, st.epoch r = p ∨ st.epoch r = p + 1) :
    log.length = (st.inEpoch p log).length + (st.inEpoch (p + 1) log).length := by
  induction log with
  | nil => rfl
  | cons r log ih =>
    have hrest := ih fun r' hr' => h r' (List.mem_cons_of_mem _ hr')
    unfold inEpoch at hrest ⊢
    rcases h r List.mem_cons_self with hr | hr
    · simp [hr]
      omega
    · simp [hr]
      omega

variable [AddCommGroup T] [LinearOrder T]

/-- What an earlier event of the log promises about a later one. -/
structure Follows (window : T) (r r' : α) : Prop where
  epoch : st.epoch r ≤ st.epoch r'
  time : st.time r ≤ st.time r'
  apart : st.epoch r < st.epoch r' → st.time r < st.time r'
  gap : st.epoch r + 2 ≤ st.epoch r' → st.time r + window < st.time r'

variable {st} {window : T} {log : List α} {r r' new : α}

theorem follows_of_lt (hs : log.Pairwise (st.Follows window)) (hr : r ∈ log) (hr' : r' ∈ log)
    (hlt : st.epoch r < st.epoch r') : st.Follows window r r' := by
  induction hs with
  | nil => cases hr
  | cons hhead _ ih =>
    rcases List.mem_cons.mp hr with rfl | hrest
    · rcases List.mem_cons.mp hr' with rfl | hrest'
      · exact absurd hlt (lt_irrefl _)
      · exact hhead r' hrest'
    · rcases List.mem_cons.mp hr' with rfl | hrest'
      · have hback := (hhead r hrest).epoch
        omega
      · exact ih hrest hrest'

theorem pairwise_snoc (hs : log.Pairwise (st.Follows window))
    (h : ∀ r ∈ log, st.Follows window r new) : (log ++ [new]).Pairwise (st.Follows window) := by
  rw [List.pairwise_append]
  refine ⟨hs, List.pairwise_singleton _ _, ?_⟩
  intro r hr r' hr'
  rw [List.mem_singleton.mp hr']
  exact h r hr

/-- One more event in the last epoch, which has one already. -/
theorem follows_same (hs : log.Pairwise (st.Follows window)) {first : α} (hfirst : first ∈ log)
    (hepoch : st.epoch new = st.epoch first) (hlast : ∀ r ∈ log, st.epoch r ≤ st.epoch first)
    (htime : ∀ r ∈ log, st.time r ≤ st.time new) : ∀ r ∈ log, st.Follows window r new := by
  intro r hr
  refine ⟨hepoch ▸ hlast r hr, htime r hr, ?_, ?_⟩
  · intro hlt
    rw [hepoch] at hlt
    exact lt_of_lt_of_le ((follows_of_lt hs hr hfirst hlt).apart hlt) (htime first hfirst)
  · intro hgap
    rw [hepoch] at hgap
    have hlt : st.epoch r < st.epoch first := by omega
    exact lt_of_lt_of_le ((follows_of_lt hs hr hfirst hlt).gap hgap) (htime first hfirst)

/-- The first event of the next epoch, `window` after the first event of the last one. -/
theorem follows_next [IsOrderedAddMonoid T] (hs : log.Pairwise (st.Follows window)) {first : α}
    (hfirst : first ∈ log) (hepoch : st.epoch new = st.epoch first + 1)
    (hlast : ∀ r ∈ log, st.epoch r ≤ st.epoch first)
    (htime : ∀ r ∈ log, st.time r < st.time new)
    (hwindow : st.time first + window ≤ st.time new) : ∀ r ∈ log, st.Follows window r new := by
  intro r hr
  have hle := hlast r hr
  refine ⟨by omega, (htime r hr).le, fun _ => htime r hr, ?_⟩
  intro hgap
  have hlt : st.epoch r < st.epoch first := by omega
  calc st.time r + window < st.time first + window :=
        add_lt_add_of_lt_of_le ((follows_of_lt hs hr hfirst hlt).apart hlt) (le_refl _)
    _ ≤ st.time new := hwindow

/-- The events of an interval of length `window` fall in the epoch of the first of them and the
next one. -/
theorem epoch_in_window [IsOrderedAddMonoid T] {a : T} (hs : log.Pairwise (st.Follows window))
    (hin : ∀ r ∈ log, a ≤ st.time r ∧ st.time r ≤ a + window) :
    ∃ p, ∀ r ∈ log, st.epoch r = p ∨ st.epoch r = p + 1 := by
  cases hs with
  | nil => exact ⟨0, fun r hr => absurd hr List.not_mem_nil⟩
  | @cons first rest hhead _ =>
    refine ⟨st.epoch first, ?_⟩
    intro r hr
    rcases List.mem_cons.mp hr with rfl | hr
    · exact Or.inl rfl
    · have hfollows := hhead r hr
      have hclose : ¬ st.epoch first + 2 ≤ st.epoch r := by
        intro hgap
        have hfar : a + window < st.time r :=
          lt_of_le_of_lt (add_le_add (hin first List.mem_cons_self).1 (le_refl _))
            (hfollows.gap hgap)
        exact absurd (hin r (List.mem_cons_of_mem _ hr)).2 (not_le.mpr hfar)
      have := hfollows.epoch
      omega

/-- If `limit` bounds the events of a kind in each epoch, twice `limit` bounds those in an interval
of length `window`. -/
theorem card_window_le [IsOrderedAddMonoid T] {limit : ℕ} (kind : α → Bool)
    (hs : log.Pairwise (st.Follows window))
    (hlimit : ∀ n, ((st.inEpoch n log).filter kind).length ≤ limit) (a : T) :
    (log.filter fun r => kind r && (decide (a ≤ st.time r) && decide (st.time r ≤ a + window))).length
      ≤ 2 * limit := by
  have hin : ∀ r ∈ log.filter fun r =>
      kind r && (decide (a ≤ st.time r) && decide (st.time r ≤ a + window)),
      a ≤ st.time r ∧ st.time r ≤ a + window := by
    intro r hr
    simp only [List.mem_filter, Bool.and_eq_true, decide_eq_true_eq] at hr
    exact hr.2.2
  obtain ⟨p, hp⟩ := epoch_in_window (hs.sublist List.filter_sublist) hin
  have hpart : ∀ n, (st.inEpoch n (log.filter fun r =>
      kind r && (decide (a ≤ st.time r) && decide (st.time r ≤ a + window)))).length ≤ limit := by
    intro n
    have hsub : (st.inEpoch n (log.filter fun r =>
        kind r && (decide (a ≤ st.time r) && decide (st.time r ≤ a + window)))).Sublist
        ((st.inEpoch n log).filter kind) := by
      unfold inEpoch
      rw [List.filter_filter, List.filter_filter]
      apply List.monotone_filter_right
      intro r hr
      simp only [Bool.and_eq_true] at hr ⊢
      exact ⟨hr.2.1, hr.1⟩
    exact hsub.length_le.trans (hlimit n)
  rw [st.length_two_epochs hp]
  have := hpart p
  have := hpart (p + 1)
  omega

end Stamps

/-- A property that only the first `n` elements of a list can have holds of at most `n`. -/
theorem length_filter_le_of_index {α : Type} {kind : α → Bool} {l : List α} {n : ℕ}
    (h : ∀ (k : ℕ) r, l[k]? = some r → kind r = true → k < n) : (l.filter kind).length ≤ n := by
  have hdrop : (l.drop n).filter kind = [] := by
    rw [List.filter_eq_nil_iff]
    intro r hr hkind
    obtain ⟨k, hk⟩ := List.getElem?_of_mem hr
    rw [List.getElem?_drop] at hk
    have := h _ r hk hkind
    omega
  calc (l.filter kind).length = ((l.take n ++ l.drop n).filter kind).length := by
        rw [List.take_append_drop]
    _ = ((l.take n).filter kind).length := by rw [List.filter_append, hdrop, List.append_nil]
    _ ≤ (l.take n).length := List.length_filter_le _ _
    _ ≤ n := List.length_take_le _ _

end AegisPlatform.Foundations
