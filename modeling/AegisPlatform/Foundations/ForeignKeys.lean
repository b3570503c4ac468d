import AegisPlatform.Foundations.Table
import Mathlib.Logic.Relation

/-! # Foreign keys and cascades

A column references a table when each of its values is the key of a row. Over the rows of all
tables at once, a row may have a key and may hold a foreign key; the rows are free of orphans when
every foreign key held is the key of some row.

A deletion cascades from a row to the rows it owns, to the rows these own, and so on. If every
reference is covered by an ownership, no cascade leaves an orphan behind.
-/

namespace AegisPlatform.Foundations
set_option autoImplicit false
set_option maxHeartbeats 250000

/-! ## One column -/

section
variable {α ρ : Type} {key : ρ → ℕ} {rows new : List α} {column : α → ℕ} {t : Table ρ key}

/-- Every value of the column is the key of a row of the table. -/
def References (rows : List α) (column : α → ℕ) (t : Table ρ key) : Prop :=
  ∀ r ∈ rows, ∃ target, t.get? (column r) = some target

namespace References

theorem nil (column : α → ℕ) (t : Table ρ key) : References [] column t :=
  fun _ hr => absurd hr List.not_mem_nil

theorem append (h : References rows column t) (hnew : References new column t) :
    References (rows ++ new) column t := by
  intro r hr
  rcases List.mem_append.mp hr with hold | hfresh
  · exact h r hold
  · exact hnew r hfresh

/-- New rows that all reference one row of the table. -/
theorem append_of_get? (h : References rows column t) {k : ℕ} {target : ρ}
    (hget : t.get? k = some target) (hnew : ∀ r ∈ new, column r = k) :
    References (rows ++ new) column t := by
  apply h.append
  intro r hr
  rw [hnew r hr]
  exact ⟨target, hget⟩

theorem snoc (h : References rows column t) {r : α} {k : ℕ} {target : ρ}
    (hget : t.get? k = some target) (hnew : column r = k) :
    References (rows ++ [r]) column t := by
  apply h.append_of_get? hget
  intro r' hr'
  rw [List.mem_singleton.mp hr']
  exact hnew

/-- Rows may be rewritten as long as the column is not. -/
theorem of_column {rows' : List α} (h : References rows column t)
    (hrows : ∀ r' ∈ rows', ∃ r ∈ rows, column r' = column r) : References rows' column t := by
  intro r' hr'
  obtain ⟨r, hr, hcolumn⟩ := hrows r' hr'
  rw [hcolumn]
  exact h r hr

/-- A table that only gains rows or rewrites them loses no target. -/
theorem of_target {t' : Table ρ key} (h : References rows column t)
    (hkept : ∀ k target, t.get? k = some target → ∃ target', t'.get? k = some target') :
    References rows column t' := by
  intro r hr
  obtain ⟨target, htarget⟩ := h r hr
  exact hkept _ target htarget

theorem insert (h : References rows column t) (mk : ℕ → ρ) (hmk : ∀ n, key (mk n) = n) :
    References rows column (t.insert mk hmk) := by
  apply h.of_target
  intro k target htarget
  refine ⟨target, ?_⟩
  rw [Table.get?_insert_of_ne t mk hmk (Nat.ne_of_lt (Table.get?_lt htarget))]
  exact htarget

theorem modify (h : References rows column t) (k : ℕ) (f : ρ → ρ) (hf : ∀ r, key (f r) = key r) :
    References rows column (t.modify k f hf) := by
  apply h.of_target
  intro j target htarget
  rw [Table.get?_modify, htarget]
  exact ⟨_, rfl⟩

end References

end

/-! ## All tables -/

section
variable {ρ κ : Type} {key foreignKey : ρ → Option κ} {owns : ρ → ρ → Prop} {rows : List ρ}
  {root : ρ}

/-- Every foreign key held is the key of some row. -/
def NoOrphans (key foreignKey : ρ → Option κ) (rows : List ρ) : Prop :=
  ∀ c ∈ rows, ∀ k ∈ foreignKey c, ∃ p ∈ rows, key p = some k

/-- The row is reached from `root` along rows that own rows. -/
def Cascaded (owns : ρ → ρ → Prop) (rows : List ρ) (root : ρ) : ρ → Prop :=
  Relation.ReflTransGen (fun p c => c ∈ rows ∧ owns p c) root

namespace Cascaded

theorem refl (owns : ρ → ρ → Prop) (rows : List ρ) (r : ρ) : Cascaded owns rows r r := Relation.ReflTransGen.refl

theorem child {p c : ρ} (h : Cascaded owns rows root p) (hc : c ∈ rows) (howns : owns p c) :
    Cascaded owns rows root c := Relation.ReflTransGen.tail h ⟨hc, howns⟩

/-- What holds of the root and passes from owner to owned holds of everything that goes. -/
theorem invariant {G : ρ → Prop} (hroot : G root)
    (hstep : ∀ p c, G p → c ∈ rows → owns p c → G c) {r : ρ} (h : Cascaded owns rows root r) :
    G r := by
  induction h with
  | refl => exact hroot
  | tail _ hlast ih => exact hstep _ _ ih hlast.1 hlast.2

end Cascaded

open Classical in
/-- The rows after the deletion of `root`. -/
noncomputable def remaining (owns : ρ → ρ → Prop) (rows : List ρ) (root : ρ) : List ρ :=
  rows.filter fun r => decide (¬ Cascaded owns rows root r)

theorem mem_remaining {r : ρ} :
    r ∈ remaining owns rows root ↔ r ∈ rows ∧ ¬ Cascaded owns rows root r := by
  simp only [remaining, List.mem_filter, decide_eq_true_eq]

/-- A test that agrees with the cascade on the rows deletes what the cascade deletes. -/
theorem remaining_eq_filter {keep : ρ → Bool}
    (h : ∀ r ∈ rows, keep r = true ↔ ¬ Cascaded owns rows root r) :
    remaining owns rows root = rows.filter keep := by
  unfold remaining
  apply List.filter_congr
  intro r hr
  rw [Bool.eq_iff_iff, h r hr]
  simp only [decide_eq_true_eq]

/-- If whoever holds the key of a row is owned by it, the deletion leaves no orphan behind. -/
theorem NoOrphans.remaining (h : NoOrphans key foreignKey rows)
    (hcover : ∀ p c k, key p = some k → foreignKey c = some k → owns p c) (root : ρ) :
    NoOrphans key foreignKey (remaining owns rows root) := by
  intro c hc k hk
  obtain ⟨hmem, hkept⟩ := mem_remaining.mp hc
  obtain ⟨p, hp, hkey⟩ := h c hmem k hk
  refine ⟨p, mem_remaining.mpr ⟨hp, fun hgoes => ?_⟩, hkey⟩
  exact hkept (hgoes.child hmem (hcover p c k hkey hk))

end

end AegisPlatform.Foundations
