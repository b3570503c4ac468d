import Mathlib.Data.List.Basic
import Mathlib.Data.List.Pairwise
import Mathlib.Data.List.Nodup

/-! # Tables with a generated primary key

A table is a list of rows in the order of insertion with a counter from which new keys are
drawn. Its two fields about keys make every table well formed: keys increase along the rows,
and every key was drawn from the counter. So a key designates at most one row, and a key once
used is never handed out again, also after its row was deleted.
-/

namespace AegisPlatform.Foundations
set_option autoImplicit false
set_option maxHeartbeats 250000

structure Table (ρ : Type) (key : ρ → ℕ) where
  rows : List ρ
  next : ℕ
  increasing : (rows.map key).Pairwise (· < ·)
  below : ∀ r ∈ rows, key r < next

namespace Table

variable {ρ : Type} {key : ρ → ℕ}

def empty : Table ρ key := ⟨[], 0, List.Pairwise.nil, by simp⟩

/-- The row with key `k` (`SELECT … WHERE id = k`). -/
def get? (t : Table ρ key) (k : ℕ) : Option ρ := t.rows.find? fun r => key r == k

/-- Insert the row `mk n` under the next key `n`. -/
def insert (t : Table ρ key) (mk : ℕ → ρ) (hmk : ∀ n, key (mk n) = n := by intro n; rfl) :
    Table ρ key where
  rows := t.rows ++ [mk t.next]
  next := t.next + 1
  increasing := by
    rw [List.map_append, List.pairwise_append]
    refine ⟨t.increasing, by simp, ?_⟩
    intro a ha b hb
    obtain ⟨r, hr, rfl⟩ := List.mem_map.mp ha
    simp only [List.map_cons, List.map_nil, List.mem_singleton] at hb
    rw [hb, hmk]
    exact t.below r hr
  below := by
    intro r hr
    rcases List.mem_append.mp hr with h | h
    · have := t.below r h
      omega
    · rw [List.mem_singleton.mp h, hmk]
      omega

/-- Apply `f` to the row with key `k` (`UPDATE … WHERE id = k`). -/
def modify (t : Table ρ key) (k : ℕ) (f : ρ → ρ) (hf : ∀ r, key (f r) = key r := by intro r; rfl) :
    Table ρ key where
  rows := t.rows.map fun r => if key r = k then f r else r
  next := t.next
  increasing := by
    rw [List.map_map]
    have hkey : (key ∘ fun r => if key r = k then f r else r) = key := by
      funext r
      simp only [Function.comp_apply]
      split
      · exact hf r
      · rfl
    rw [hkey]
    exact t.increasing
  below := by
    intro r hr
    obtain ⟨r', hr', rfl⟩ := List.mem_map.mp hr
    have := t.below r' hr'
    split
    · rw [hf]
      exact this
    · exact this

/-- Keep the rows satisfying `p` (`DELETE … WHERE NOT p`). -/
def filter (t : Table ρ key) (p : ρ → Bool) : Table ρ key where
  rows := t.rows.filter p
  next := t.next
  increasing := t.increasing.sublist (List.filter_sublist.map key)
  below := fun r hr => t.below r (List.mem_of_mem_filter hr)

/-- Insert rows one after the other; `setKey n r` is the row `r` under the key `n`. -/
def insertAll (t : Table ρ key) (setKey : ℕ → ρ → ρ) (hset : ∀ n r, key (setKey n r) = n)
    (rs : List ρ) : Table ρ key :=
  rs.foldl (fun t r => t.insert (fun n => setKey n r) (fun n => hset n r)) t

@[simp] theorem rows_insert (t : Table ρ key) (mk : ℕ → ρ) (hmk : ∀ n, key (mk n) = n) :
    (t.insert mk hmk).rows = t.rows ++ [mk t.next] := rfl

@[simp] theorem next_insert (t : Table ρ key) (mk : ℕ → ρ) (hmk : ∀ n, key (mk n) = n) :
    (t.insert mk hmk).next = t.next + 1 := rfl

@[simp] theorem rows_modify (t : Table ρ key) (k : ℕ) (f : ρ → ρ) (hf : ∀ r, key (f r) = key r) :
    (t.modify k f hf).rows = t.rows.map fun r => if key r = k then f r else r := rfl

@[simp] theorem next_modify (t : Table ρ key) (k : ℕ) (f : ρ → ρ) (hf : ∀ r, key (f r) = key r) :
    (t.modify k f hf).next = t.next := rfl

@[simp] theorem rows_filter (t : Table ρ key) (p : ρ → Bool) :
    (t.filter p).rows = t.rows.filter p := rfl

@[simp] theorem next_filter (t : Table ρ key) (p : ρ → Bool) : (t.filter p).next = t.next := rfl

theorem rows_insertAll (t : Table ρ key) (setKey : ℕ → ρ → ρ)
    (hset : ∀ n r, key (setKey n r) = n) (rs : List ρ) :
    (t.insertAll setKey hset rs).rows =
      t.rows ++ rs.mapIdx fun i r => setKey (t.next + i) r := by
  induction rs generalizing t with
  | nil => simp [insertAll]
  | cons r rs ih =>
    have h := ih (t.insert (fun n => setKey n r) (fun n => hset n r))
    simp only [insertAll, List.foldl_cons] at h ⊢
    rw [h]
    simp only [rows_insert, next_insert, List.mapIdx_cons, List.append_assoc, Nat.add_zero,
      List.singleton_append]
    congr 3
    funext i r'
    rw [Nat.add_assoc, Nat.add_comm 1 i]

/-! ## Looking up a key -/

theorem nodup (t : Table ρ key) : (t.rows.map key).Nodup :=
  t.increasing.imp fun h => Nat.ne_of_lt h

/-- A column stays without duplicates when the new row brings a new value. -/
theorem nodup_column_snoc {κ : Type} {column : ρ → κ} {rows : List ρ} {new : ρ}
    (h : (rows.map column).Nodup) (hnew : ∀ r ∈ rows, column r ≠ column new) :
    ((rows ++ [new]).map column).Nodup := by
  rw [List.map_append, List.nodup_append]
  refine ⟨h, List.nodup_singleton _, ?_⟩
  intro a ha b hb heq
  obtain ⟨r, hr, rfl⟩ := List.mem_map.mp ha
  exact hnew r hr (heq.trans (List.mem_singleton.mp hb))

theorem get?_eq_some_iff (t : Table ρ key) (k : ℕ) (r : ρ) :
    t.get? k = some r ↔ r ∈ t.rows ∧ key r = k := by
  constructor
  · intro h
    have hk := List.find?_some h
    exact ⟨List.mem_of_find?_eq_some h, by simpa using hk⟩
  · rintro ⟨hr, rfl⟩
    cases hfind : t.get? (key r) with
    | none =>
      have := List.find?_eq_none.mp hfind r hr
      simp at this
    | some r' =>
      have hr' := List.mem_of_find?_eq_some hfind
      have hk : key r' = key r := by simpa using List.find?_some hfind
      rw [List.inj_on_of_nodup_map t.nodup hr' hr hk]

theorem get?_mem {t : Table ρ key} {k : ℕ} {r : ρ} (h : t.get? k = some r) : r ∈ t.rows :=
  ((t.get?_eq_some_iff k r).mp h).1

theorem get?_key {t : Table ρ key} {k : ℕ} {r : ρ} (h : t.get? k = some r) : key r = k :=
  ((t.get?_eq_some_iff k r).mp h).2

theorem get?_of_mem {t : Table ρ key} {r : ρ} (h : r ∈ t.rows) : t.get? (key r) = some r :=
  (t.get?_eq_some_iff _ r).mpr ⟨h, rfl⟩

theorem get?_lt {t : Table ρ key} {k : ℕ} {r : ρ} (h : t.get? k = some r) : k < t.next := by
  rw [← get?_key h]
  exact t.below r (get?_mem h)

/-- The keys increase along the rows, so a table is what its lookups find. -/
theorem ext_get? {t t' : Table ρ key} (hnext : t.next = t'.next)
    (hget : ∀ k, t.get? k = t'.get? k) : t = t' := by
  have hnodup (u : Table ρ key) : u.rows.Nodup := u.nodup.of_map key
  have hmem : ∀ r, r ∈ t.rows ↔ r ∈ t'.rows := by
    intro r
    constructor
    · intro hr
      exact get?_mem ((hget (key r)).symm.trans (get?_of_mem hr))
    · intro hr
      exact get?_mem ((hget (key r)).trans (get?_of_mem hr))
  have hperm : t.rows.Perm t'.rows :=
    (List.perm_ext_iff_of_nodup (hnodup t) (hnodup t')).mpr hmem
  have hpair (u : Table ρ key) : u.rows.Pairwise fun a b => key a < key b :=
    List.pairwise_map.mp u.increasing
  have hrows : t.rows = t'.rows :=
    hperm.eq_of_pairwise (fun a b _ _ hab hba => absurd hba (Nat.lt_asymm hab)) (hpair t) (hpair t')
  cases t
  cases t'
  dsimp only at hrows hnext
  subst hrows hnext
  rfl

theorem get?_insert_self (t : Table ρ key) (mk : ℕ → ρ) (hmk : ∀ n, key (mk n) = n) :
    (t.insert mk hmk).get? t.next = some (mk t.next) := by
  rw [get?_eq_some_iff]
  exact ⟨by simp, hmk _⟩

theorem get?_insert_of_ne (t : Table ρ key) (mk : ℕ → ρ) (hmk : ∀ n, key (mk n) = n)
    {k : ℕ} (hk : k ≠ t.next) : (t.insert mk hmk).get? k = t.get? k := by
  have hnew : (key (mk t.next) == k) = false := by
    rw [hmk]
    simpa using Ne.symm hk
  simp [get?, List.find?_append, hnew]

theorem get?_modify (t : Table ρ key) (k : ℕ) (f : ρ → ρ) (hf : ∀ r, key (f r) = key r) (j : ℕ) :
    (t.modify k f hf).get? j = (t.get? j).map fun r => if j = k then f r else r := by
  simp only [get?, rows_modify, List.find?_map]
  have hp : ((fun r => key r == j) ∘ fun r => if key r = k then f r else r) =
      fun r => key r == j := by
    funext r
    simp only [Function.comp_apply]
    split
    · rw [hf]
    · rfl
  rw [hp]
  cases hfind : t.rows.find? fun r => key r == j with
  | none => rfl
  | some r =>
    have hk : key r = j := by simpa using List.find?_some hfind
    simp [hk]

theorem get?_modify_self (t : Table ρ key) (k : ℕ) (f : ρ → ρ) (hf : ∀ r, key (f r) = key r) :
    (t.modify k f hf).get? k = (t.get? k).map f := by
  rw [get?_modify]
  simp

theorem get?_modify_of_ne (t : Table ρ key) {k j : ℕ} (f : ρ → ρ)
    (hf : ∀ r, key (f r) = key r) (h : j ≠ k) : (t.modify k f hf).get? j = t.get? j := by
  rw [get?_modify]
  simp [h]

/-- An update counts by what it makes of the row with the key. -/
theorem modify_congr (t : Table ρ key) {k : ℕ} {f g : ρ → ρ} (hf : ∀ r, key (f r) = key r)
    (hg : ∀ r, key (g r) = key r) (h : ∀ r, t.get? k = some r → f r = g r) :
    t.modify k f hf = t.modify k g hg := by
  refine ext_get? rfl fun j => ?_
  rw [get?_modify, get?_modify]
  cases hrow : t.get? j with
  | none => rfl
  | some r =>
    by_cases hj : j = k
    · subst hj
      simp [h r hrow]
    · simp [hj]

theorem modify_of_same (t : Table ρ key) {k : ℕ} {f : ρ → ρ} (hf : ∀ r, key (f r) = key r)
    (h : ∀ r, t.get? k = some r → f r = r) : t.modify k f hf = t := by
  refine ext_get? rfl fun j => ?_
  rw [get?_modify]
  cases hrow : t.get? j with
  | none => rfl
  | some r =>
    by_cases hj : j = k
    · subst hj
      simp [h r hrow]
    · simp [hj]

theorem get?_filter_eq_some_iff (t : Table ρ key) (p : ρ → Bool) (k : ℕ) (r : ρ) :
    (t.filter p).get? k = some r ↔ t.get? k = some r ∧ p r = true := by
  simp only [get?_eq_some_iff, rows_filter, List.mem_filter]
  tauto

end Table

end AegisPlatform.Foundations
