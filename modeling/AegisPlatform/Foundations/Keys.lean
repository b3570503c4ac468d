import AegisPlatform.Foundations.Table

/-! # Keys given out

A table evolves when rows are inserted, changed and deleted. Its counter only grows, and a key that
was given out and has no row any more never gets one again.
-/

namespace AegisPlatform.Foundations
set_option autoImplicit false
set_option maxHeartbeats 250000

namespace Table
variable {ρ : Type} {key : ρ → ℕ}

/-- The key was given out, and its row is deleted. -/
def Gone (t : Table ρ key) (k : ℕ) : Prop := k < t.next ∧ t.get? k = none

/-- `t'` is a later state of `t`. -/
structure Evolves (t t' : Table ρ key) : Prop where
  next_le : t.next ≤ t'.next
  gone : ∀ k, t.Gone k → t'.Gone k

theorem gone_or_stored {t : Table ρ key} {k : ℕ} (h : k < t.next) :
    t.Gone k ∨ ∃ r, t.get? k = some r := by
  cases hk : t.get? k with
  | none => exact Or.inl ⟨h, hk⟩
  | some r => exact Or.inr ⟨r, rfl⟩

namespace Evolves
variable {t t' t'' : Table ρ key}

theorem refl (t : Table ρ key) : t.Evolves t := ⟨Nat.le_refl _, fun _ h => h⟩

theorem trans (h : t.Evolves t') (h' : t'.Evolves t'') : t.Evolves t'' where
  next_le := Nat.le_trans h.next_le h'.next_le
  gone := fun k hk => h'.gone k (h.gone k hk)

/-- A row with a key given out before was there before. -/
theorem stored {k : ℕ} (h : t.Evolves t') (hk : k < t.next) {r' : ρ} (hr : t'.get? k = some r') :
    ∃ r, t.get? k = some r := by
  rcases gone_or_stored hk with hgone | hstored
  · have hnone := (h.gone k hgone).2
    rw [hr] at hnone
    cases hnone
  · exact hstored

theorem of_insert (t : Table ρ key) (mk : ℕ → ρ) (hmk : ∀ n, key (mk n) = n) :
    t.Evolves (t.insert mk hmk) where
  next_le := by
    rw [next_insert]
    exact Nat.le_succ _
  gone := by
    rintro k ⟨hlt, hnone⟩
    refine ⟨?_, ?_⟩
    · rw [next_insert]
      exact Nat.lt_succ_of_lt hlt
    · rw [get?_insert_of_ne t mk hmk (Nat.ne_of_lt hlt)]
      exact hnone

theorem of_modify (t : Table ρ key) (k : ℕ) (f : ρ → ρ) (hf : ∀ r, key (f r) = key r) :
    t.Evolves (t.modify k f hf) where
  next_le := Nat.le_of_eq (next_modify ..).symm
  gone := by
    rintro j ⟨hlt, hnone⟩
    refine ⟨hlt, ?_⟩
    rw [get?_modify, hnone]
    split
    · rfl
    · rfl

theorem of_filter (t : Table ρ key) (p : ρ → Bool) : t.Evolves (t.filter p) where
  next_le := Nat.le_of_eq (next_filter ..).symm
  gone := by
    rintro k ⟨hlt, hnone⟩
    refine ⟨hlt, ?_⟩
    cases hk : (t.filter p).get? k with
    | none => rfl
    | some r =>
      have hstored := ((get?_filter_eq_some_iff t p k r).mp hk).1
      rw [hnone] at hstored
      cases hstored

theorem of_insertAll (setKey : ℕ → ρ → ρ) (hset : ∀ n r, key (setKey n r) = n) (rs : List ρ)
    (t : Table ρ key) : t.Evolves (t.insertAll setKey hset rs) := by
  induction rs generalizing t with
  | nil => exact refl t
  | cons r rs ih => exact (of_insert t _ _).trans (ih _)

end Evolves

/-- The row a filter rejects is gone. -/
theorem gone_filter {t : Table ρ key} {p : ρ → Bool} {k : ℕ} {r : ρ} (hr : t.get? k = some r)
    (hp : p r = false) : (t.filter p).Gone k := by
  have hlt : k < t.next := get?_lt hr
  refine ⟨hlt, ?_⟩
  cases hk : (t.filter p).get? k with
  | none => rfl
  | some r' =>
    obtain ⟨hstored, hp'⟩ := (get?_filter_eq_some_iff t p k r').mp hk
    rw [hr] at hstored
    obtain rfl := Option.some.inj hstored
    rw [hp] at hp'
    cases hp'

end Table

end AegisPlatform.Foundations
