import Mathlib.Data.List.Sort
import Mathlib.Data.List.Nodup
import Mathlib.Data.List.Perm.Basic

/-! # Pages of a query that orders by a key

Each page is a query of its own: the rows in some order that is descending in the key, of which one
window is returned. Rows with equal keys may come in another order each time. Over distinct rows
the windows of any such orders are a partition of the rows iff no two rows with one key are the last
of a page and the first of the next.
-/

namespace AegisPlatform.Foundations
set_option autoImplicit false
set_option maxHeartbeats 250000

variable {α K : Type}

/-- Page `k`, counted from 0. -/
def window (size k : ℕ) (rows : List α) : List α := (rows.drop (k * size)).take size

theorem getElem?_window {size i : ℕ} (k : ℕ) (rows : List α) (hi : i < size) :
    (window size k rows)[i]? = rows[k * size + i]? := by
  unfold window
  rw [List.getElem?_take_of_lt hi, List.getElem?_drop]

theorem length_window {size k : ℕ} {rows : List α} (h : (k + 1) * size ≤ rows.length) :
    (window size k rows).length = size := by
  unfold window
  rw [Nat.succ_mul] at h
  rw [List.length_take, List.length_drop]
  omega

theorem window_eq_nil {size k : ℕ} {rows : List α} (h : rows.length ≤ k * size) :
    window size k rows = [] := by
  unfold window
  rw [List.drop_eq_nil_of_le h, List.take_nil]

theorem take_succ_mul (size k : ℕ) (rows : List α) :
    rows.take ((k + 1) * size) = rows.take (k * size) ++ window size k rows := by
  rw [Nat.succ_mul, List.take_add]
  rfl

theorem flatMap_window (size n : ℕ) (rows : List α) :
    ((List.range n).flatMap fun k => window size k rows) = rows.take (n * size) := by
  induction n with
  | zero => rw [Nat.zero_mul, List.take_zero, List.range_zero, List.flatMap_nil]
  | succ n ih =>
    rw [List.range_succ, List.flatMap_append, ih, take_succ_mul, List.flatMap_singleton]

variable [LinearOrder K] {key : α → K} {rows ordered ordered' : List α}

/-- The orders in which `ORDER BY key DESC` may return `rows`. -/
structure OrderBy (key : α → K) (rows ordered : List α) : Prop where
  perm : ordered.Perm rows
  sorted : ordered.Pairwise fun a b => key b ≤ key a

/-- One of the orders. -/
def newest (key : α → K) (rows : List α) : List α := rows.insertionSort fun a b => key b ≤ key a

/-- The keys of the rows, the greatest first: the same in every order. -/
def keys (key : α → K) (rows : List α) : List K := (newest key rows).map key

/-- No two rows with one key are the last of a page and the first of the next. -/
def Unsplit (key : α → K) (rows : List α) (size : ℕ) : Prop :=
  ∀ k < rows.length, (k + 1) * size < rows.length →
    (keys key rows)[(k + 1) * size - 1]? ≠ (keys key rows)[(k + 1) * size]?

instance (key : α → K) (rows : List α) (size : ℕ) : Decidable (Unsplit key rows size) :=
  inferInstanceAs (Decidable (∀ k < rows.length, (k + 1) * size < rows.length →
    (keys key rows)[(k + 1) * size - 1]? ≠ (keys key rows)[(k + 1) * size]?))

namespace OrderBy

theorem newest (key : α → K) (rows : List α) : OrderBy key rows (newest key rows) where
  perm := List.perm_insertionSort _ rows
  sorted := by
    have htotal : Std.Total fun a b : α => key b ≤ key a := ⟨fun a b => le_total (key b) (key a)⟩
    have htrans : IsTrans α fun a b => key b ≤ key a := ⟨fun _ _ _ hab hbc => hbc.trans hab⟩
    exact List.pairwise_insertionSort _ rows

theorem sorted_keys (h : OrderBy key rows ordered) :
    (ordered.map key).Pairwise fun a b => b ≤ a := List.pairwise_map.mpr h.sorted

theorem map_key (h : OrderBy key rows ordered) : ordered.map key = keys key rows := by
  refine List.Perm.eq_of_pairwise (fun a b _ _ hab hba => le_antisymm hba hab) h.sorted_keys
    (OrderBy.newest key rows).sorted_keys ?_
  exact (h.perm.trans (OrderBy.newest key rows).perm.symm).map key

/-- Exchanging rows with equal keys gives another order. -/
theorem of_map_eq (h : OrderBy key rows ordered) (hperm : ordered'.Perm ordered)
    (hmap : ordered'.map key = ordered.map key) : OrderBy key rows ordered' where
  perm := hperm.trans h.perm
  sorted := by
    have hsorted := h.sorted_keys
    rw [← hmap] at hsorted
    exact List.pairwise_map.mp hsorted

/-- Rows that are matched one for one with others of the same keys come in an order of those. -/
theorem matched {β : Type} {key' : β → K} {r : α → β → Prop} {rows' : List β}
    (h : OrderBy key rows ordered) (hrows : List.Forall₂ r rows rows')
    (hkey : ∀ a b, r a b → key' b = key a) :
    ∃ ordered', OrderBy key' rows' ordered' ∧ List.Forall₂ r ordered ordered' := by
  obtain ⟨ordered', hmatched, hperm⟩ := List.perm_comp_forall₂ h.perm hrows
  have hkeys : List.Forall₂ (fun a b => key' b = key a) ordered ordered' :=
    hmatched.imp fun a b hab => hkey a b hab
  have hsame : ordered'.map key' = ordered.map key := by
    rw [← List.forall₂_eq_eq_eq, List.forall₂_map_left_iff, List.forall₂_map_right_iff]
    exact hkeys.flip
  refine ⟨ordered', ⟨hperm, ?_⟩, hmatched⟩
  have hsorted := h.sorted_keys
  rw [← hsame] at hsorted
  exact List.pairwise_map.mp hsorted

theorem length_keys (key : α → K) (rows : List α) : (keys key rows).length = rows.length := by
  unfold keys
  rw [List.length_map, (OrderBy.newest key rows).perm.length_eq]

theorem length_eq (h : OrderBy key rows ordered) : ordered.length = rows.length :=
  h.perm.length_eq

/-- Where the keys drop, one threshold separates what is before from what is behind. -/
theorem threshold {n : ℕ} (hn : 0 < n) (hlen : n < rows.length)
    (hne : (keys key rows)[n - 1]? ≠ (keys key rows)[n]?) :
    ∃ c, (∀ x ∈ (keys key rows).take n, c < x) ∧ ∀ x ∈ (keys key rows).drop n, x ≤ c := by
  have hsorted := List.pairwise_iff_getElem.mp (OrderBy.newest key rows).sorted_keys
  change ∀ i j (hi : i < (keys key rows).length) (hj : j < (keys key rows).length), i < j →
    (keys key rows)[j] ≤ (keys key rows)[i] at hsorted
  have hn' : n < (keys key rows).length := by rwa [length_keys]
  have hbefore : n - 1 < (keys key rows).length := by omega
  have hdrop : (keys key rows)[n] < (keys key rows)[n - 1] := by
    refine lt_of_le_of_ne (hsorted (n - 1) n hbefore hn' (by omega)) fun heq => hne ?_
    rw [List.getElem?_eq_getElem hbefore, List.getElem?_eq_getElem hn', heq]
  refine ⟨(keys key rows)[n], ?_, ?_⟩
  · intro x hx
    obtain ⟨i, hi, rfl⟩ := List.mem_take_iff_getElem.mp hx
    rcases Nat.lt_or_ge i (n - 1) with hlt | hge
    · exact hdrop.trans_le (hsorted i (n - 1) (by omega) hbefore hlt)
    · obtain rfl : i = n - 1 := by omega
      exact hdrop
  · intro x hx
    obtain ⟨i, hi, rfl⟩ := List.mem_drop_iff_getElem.mp hx
    rcases Nat.eq_zero_or_pos i with rfl | hpos
    · exact le_refl _
    · exact hsorted n (n + i) hn' (by omega) (by omega)

theorem take_eq_filter (h : OrderBy key rows ordered) {n : ℕ} {c : K}
    (hbefore : ∀ x ∈ (keys key rows).take n, c < x)
    (hbehind : ∀ x ∈ (keys key rows).drop n, x ≤ c) :
    ordered.take n = ordered.filter fun a => c < key a := by
  rw [← h.map_key, ← List.map_take, List.forall_mem_map] at hbefore
  rw [← h.map_key, ← List.map_drop, List.forall_mem_map] at hbehind
  have hfirst : (ordered.take n).filter (fun a => c < key a) = ordered.take n :=
    List.filter_eq_self.mpr fun a ha => decide_eq_true (hbefore a ha)
  have hrest : (ordered.drop n).filter (fun a => c < key a) = [] :=
    List.filter_eq_nil_iff.mpr fun a ha => by simpa using hbehind a ha
  calc ordered.take n = (ordered.take n ++ ordered.drop n).filter fun a => c < key a := by
        rw [List.filter_append, hfirst, hrest, List.append_nil]
    _ = ordered.filter fun a => c < key a := by rw [List.take_append_drop]

/-- Every order shows the same rows before a place where the keys drop. -/
theorem take_perm (h : OrderBy key rows ordered) (h' : OrderBy key rows ordered') {n : ℕ}
    (hn : 0 < n) (hlen : n < rows.length)
    (hne : (keys key rows)[n - 1]? ≠ (keys key rows)[n]?) :
    (ordered.take n).Perm (ordered'.take n) := by
  obtain ⟨c, hbefore, hbehind⟩ := threshold hn hlen hne
  rw [h.take_eq_filter hbefore hbehind, h'.take_eq_filter hbefore hbehind]
  exact (h.perm.trans h'.perm.symm).filter _

/-- If no tie is split, every order shows the same rows on the first `k` pages. -/
theorem take_mul_perm (h : OrderBy key rows ordered) (h' : OrderBy key rows ordered') {size : ℕ}
    (hsize : 0 < size) (hunsplit : Unsplit key rows size) (k : ℕ) :
    (ordered.take (k * size)).Perm (ordered'.take (k * size)) := by
  cases k with
  | zero => simp
  | succ k =>
    rcases Nat.lt_or_ge ((k + 1) * size) rows.length with hlt | hge
    · have hk : k < rows.length := by
        have hle : k + 1 ≤ (k + 1) * size := Nat.le_mul_of_pos_right _ hsize
        omega
      exact h.take_perm h' (Nat.mul_pos k.succ_pos hsize) hlt (hunsplit k hk hlt)
    · rw [List.take_of_length_le (h.length_eq.trans_le hge),
        List.take_of_length_le (h'.length_eq.trans_le hge)]
      exact h.perm.trans h'.perm.symm

theorem window_perm (h : OrderBy key rows ordered) (h' : OrderBy key rows ordered') {size : ℕ}
    (hsize : 0 < size) (hunsplit : Unsplit key rows size) (k : ℕ) :
    (window size k ordered).Perm (window size k ordered') := by
  have hthis := h.take_mul_perm h' hsize hunsplit k
  have hnext := h.take_mul_perm h' hsize hunsplit (k + 1)
  rw [take_succ_mul, take_succ_mul] at hnext
  exact (List.perm_append_left_iff _).mp (hnext.trans (hthis.symm.append_right _))

/-- A permutation that shows the same names in the same places moves nothing. -/
theorem eq_of_map_eq {β : Type} {f : α → β} (hperm : ordered.Perm rows) (hrows : (rows.map f).Nodup)
    (hmap : ordered.map f = rows.map f) : ordered = rows := by
  refine List.ext_getElem hperm.length_eq fun i hi hi' => ?_
  have hname : f ordered[i] = f rows[i] := by
    rw [← List.getElem_map f, ← List.getElem_map f]
    · simp only [hmap]
    · rwa [List.length_map]
    · rwa [List.length_map]
  exact List.inj_on_of_nodup_map hrows (hperm.subset (List.getElem_mem hi)) (List.getElem_mem hi')
    hname

/-- Two rows with one key can be exchanged, wherever they stand. -/
theorem swap [DecidableEq α] (h : OrderBy key rows rows) (hrows : rows.Nodup) {a b : α}
    (ha : a ∈ rows) (hb : b ∈ rows) (hkey : key a = key b) :
    OrderBy key rows (rows.map (Equiv.swap a b)) := by
  have hmem : ∀ c ∈ rows, Equiv.swap a b c ∈ rows := by
    intro c hc
    rw [Equiv.swap_apply_def]
    split
    · exact hb
    · split
      · exact ha
      · exact hc
  apply h.of_map_eq
  · refine (List.perm_ext_iff_of_nodup (hrows.map (Equiv.injective _)) hrows).mpr fun c => ?_
    rw [List.mem_map]
    constructor
    · rintro ⟨d, hd, rfl⟩
      exact hmem d hd
    · exact fun hc => ⟨Equiv.swap a b c, hmem c hc, Equiv.swap_apply_self a b c⟩
  · rw [List.map_map]
    refine List.map_congr_left fun c _ => ?_
    show key (Equiv.swap a b c) = key c
    rw [Equiv.swap_apply_def]
    split
    · next hca => rw [hca, hkey]
    · split
      · next hcb => rw [hcb, hkey]
      · rfl

/-- Rows with names of their own come in one order only iff the keys drop from each row to those
behind it. -/
theorem unique_iff {β : Type} {f : α → β} (hrows : (rows.map f).Nodup) :
    (∀ ordered, OrderBy key rows ordered → ordered.map f = rows.map f) ↔
      rows.Pairwise fun a b => key b < key a := by
  classical
  have hnodup : rows.Nodup := List.Nodup.of_map f hrows
  constructor
  · intro h
    have hnewest := OrderBy.newest key rows
    have hself : OrderBy key rows rows := by
      rwa [eq_of_map_eq hnewest.perm hrows (h _ hnewest)] at hnewest
    refine List.pairwise_iff_getElem.mpr fun i j hi hj hij => ?_
    refine lt_of_le_of_ne (List.pairwise_iff_getElem.mp hself.sorted i j hi hj hij) fun hkey => ?_
    have hswap := hself.swap hnodup (List.getElem_mem hi) (List.getElem_mem hj) hkey.symm
    have hfixed := eq_of_map_eq hswap.perm hrows (h _ hswap)
    have hat : Equiv.swap rows[i] rows[j] rows[i] = rows[i] := by
      have hplace := congrArg (fun l => l[i]?) hfixed
      simpa [List.getElem?_eq_getElem hi] using hplace
    rw [Equiv.swap_apply_left] at hat
    exact Nat.ne_of_gt hij ((hnodup.getElem_inj_iff).mp hat)
  · intro hdrops ordered hordered
    have hkeys : (rows.map key).Nodup :=
      List.pairwise_map.mpr (hdrops.imp fun hlt => Ne.symm (ne_of_lt hlt))
    refine congrArg (List.map f) (List.Perm.eq_of_pairwise ?_ hordered.sorted
      (hdrops.imp fun hlt => le_of_lt hlt) hordered.perm)
    intro a b ha hb hba hab
    exact List.inj_on_of_nodup_map hkeys (hordered.perm.subset ha) hb (le_antisymm hab hba)

/-- Rows that share one key come in one order only iff there is at most one of them. -/
theorem unique_iff_of_tied {β : Type} {f : α → β} (hrows : (rows.map f).Nodup)
    (htied : ∀ a ∈ rows, ∀ b ∈ rows, key a = key b) :
    (∀ ordered, OrderBy key rows ordered → ordered.map f = rows.map f) ↔ rows.length ≤ 1 := by
  rw [unique_iff hrows]
  constructor
  · intro hdrops
    by_contra hlen
    have hfirst : 0 < rows.length := by omega
    have hsecond : 1 < rows.length := by omega
    have hlt := List.pairwise_iff_getElem.mp hdrops 0 1 hfirst hsecond Nat.one_pos
    exact (ne_of_lt hlt) (htied _ (List.getElem_mem hsecond) _ (List.getElem_mem hfirst))
  · intro hlen
    refine List.pairwise_iff_getElem.mpr fun i j hi hj hij => ?_
    omega

end OrderBy

/-- The pages of some orders, one for each page. -/
def pages (size n : ℕ) (orders : ℕ → List α) : List α :=
  (List.range n).flatMap fun k => window size k (orders k)

theorem pages_perm_of_unsplit {size n : ℕ} {orders : ℕ → List α} (hsize : 0 < size)
    (hn : rows.length ≤ n * size) (hunsplit : Unsplit key rows size)
    (horders : ∀ k, OrderBy key rows (orders k)) : (pages size n orders).Perm rows := by
  have hfixed := OrderBy.newest key rows
  have hpages : (pages size n orders).Perm
      ((List.range n).flatMap fun k => window size k (newest key rows)) :=
    List.Perm.flatMap_left _ fun k _ => (horders k).window_perm hfixed hsize hunsplit k
  rw [flatMap_window, List.take_of_length_le (hfixed.length_eq.trans_le hn)] at hpages
  exact hpages.trans hfixed.perm

/-- A split tie can come in one order for the page that ends in it and in the other for the page
that starts in it: then both show the same row. -/
theorem split_twice {size k : ℕ} (hsize : 0 < size) (hk : (k + 1) * size < rows.length)
    (htie : (keys key rows)[(k + 1) * size - 1]? = (keys key rows)[(k + 1) * size]?) :
    ∃ ordered ordered' a, OrderBy key rows ordered ∧ OrderBy key rows ordered' ∧
      a ∈ window size k ordered ∧ a ∈ window size (k + 1) ordered' := by
  have h := OrderBy.newest key rows
  have hlast : k * size + (size - 1) = (k + 1) * size - 1 := by
    rw [Nat.succ_mul]
    omega
  have hpos : 0 < (k + 1) * size := Nat.mul_pos k.succ_pos hsize
  generalize hi : (k + 1) * size - 1 = i at htie hlast
  have hsucc : (k + 1) * size = i + 1 := by omega
  rw [hsucc] at hk htie
  rw [← h.length_eq] at hk
  let a := (newest key rows)[i]
  let b := (newest key rows)[i + 1]
  have hsplit : newest key rows =
      (newest key rows).take i ++ a :: b :: (newest key rows).drop (i + 2) := by
    rw [List.getElem_cons_drop hk, List.getElem_cons_drop (by omega), List.take_append_drop]
  have hkeys : key a = key b := by
    rw [← h.map_key, List.getElem?_map, List.getElem?_map, List.getElem?_eq_getElem hk,
      List.getElem?_eq_getElem (by omega)] at htie
    exact Option.some.inj htie
  refine ⟨newest key rows, (newest key rows).take i ++ b :: a :: (newest key rows).drop (i + 2),
    a, h, ?_, ?_, ?_⟩
  · apply h.of_map_eq
    · conv_rhs => rw [hsplit]
      exact (List.Perm.swap a b _).append_left _
    · conv_rhs => rw [hsplit]
      simp only [List.map_append, List.map_cons, hkeys]
  · apply List.mem_of_getElem?
    rw [getElem?_window k _ (Nat.sub_lt hsize Nat.one_pos), hlast]
    exact List.getElem?_eq_getElem _
  · apply List.mem_of_getElem?
    rw [getElem?_window (k + 1) _ hsize, Nat.add_zero, hsucc]
    rw [List.getElem?_append_right (by rw [List.length_take]; omega)]
    have hzero : i + 1 - ((newest key rows).take i).length = 1 := by
      rw [List.length_take]
      omega
    rw [hzero]
    rfl

/-- Over distinct rows, every choice of orders shows every row exactly once iff no tie is split. -/
theorem pages_perm_iff {size n : ℕ} (hrows : rows.Nodup) (hsize : 0 < size)
    (hn : rows.length ≤ n * size) :
    (∀ orders : ℕ → List α, (∀ k, OrderBy key rows (orders k)) →
      (pages size n orders).Perm rows) ↔ Unsplit key rows size := by
  constructor
  · intro h k _ hk htie
    obtain ⟨ordered, ordered', a, hfirst, hsecond, ha, ha'⟩ := split_twice hsize hk htie
    have hperm := h (fun j => if j = k + 1 then ordered' else ordered) fun j => by
      by_cases hj : j = k + 1
      · rwa [if_pos hj]
      · rwa [if_neg hj]
    have hnodup := hperm.nodup_iff.mpr hrows
    have hkn : k + 1 < n := by
      by_contra hge
      have hle : n * size ≤ (k + 1) * size := Nat.mul_le_mul_right _ (by omega)
      omega
    obtain ⟨-, hpairwise⟩ := List.nodup_flatMap.mp hnodup
    have hdisjoint := List.pairwise_iff_getElem.mp hpairwise k (k + 1)
      (by rw [List.length_range]; omega) (by rw [List.length_range]; exact hkn) (Nat.lt_succ_self k)
    simp only [List.getElem_range, Function.onFun,
      if_neg (Nat.ne_of_lt (Nat.lt_succ_self k))] at hdisjoint
    exact hdisjoint ha ha'
  · intro hunsplit orders horders
    exact pages_perm_of_unsplit hsize hn hunsplit horders

/-! ## Pages of a table that changes -/

/-- How many rows stand before those with key `c`. -/
def ahead (key : α → K) (c : K) (rows : List α) : ℕ := rows.countP fun a => c < key a

/-- A row with a key of its own stands behind the rows ahead of it. -/
theorem OrderBy.getElem?_ahead (h : OrderBy key rows ordered) (hkeys : (rows.map key).Nodup) {a : α}
    (ha : a ∈ rows) : ordered[ahead key (key a) rows]? = some a := by
  obtain ⟨before, behind, rfl⟩ := List.append_of_mem (h.perm.symm.subset ha)
  have hdistinct : ((before ++ a :: behind).map key).Nodup := (h.perm.map key).nodup_iff.mpr hkeys
  obtain ⟨-, hbehind, hbefore⟩ := List.pairwise_append.mp h.sorted
  rw [List.map_append, List.map_cons, List.nodup_middle, List.nodup_cons, List.mem_append,
    not_or] at hdistinct
  have hall : ∀ b ∈ before, (key a < key b : Bool) = true := by
    intro b hb
    refine decide_eq_true (lt_of_le_of_ne (hbefore b hb a List.mem_cons_self) fun heq => ?_)
    exact hdistinct.1.1 (heq ▸ List.mem_map_of_mem hb)
  have hnone : ∀ b ∈ a :: behind, ¬ (key a < key b : Bool) = true := by
    intro b hb
    rw [decide_eq_true_eq, not_lt]
    rcases List.mem_cons.mp hb with rfl | hmem
    · exact le_refl _
    · exact (List.pairwise_cons.mp hbehind).1 b hmem
  have hahead : ahead key (key a) rows = before.length := by
    unfold ahead
    rw [← h.perm.countP_eq, List.countP_append, List.countP_eq_length.mpr hall,
      List.countP_eq_zero.mpr hnone, Nat.add_zero]
  rw [hahead, List.getElem?_append_right (Nat.le_refl _), Nat.sub_self, List.getElem?_cons_zero]

/-- Where no row before `c` is lost, none of those behind moves forward. -/
theorem ahead_le {rows' : List α} {c : K} (hkeys : (rows.map key).Nodup)
    (hkept : ∀ a ∈ rows, c < key a → ∃ b ∈ rows', key b = key a) :
    ahead key c rows ≤ ahead key c rows' := by
  have hsub : (rows.filter fun a => c < key a).map key ⊆ (rows'.filter fun a => c < key a).map key := by
    intro x hx
    obtain ⟨a, ha, rfl⟩ := List.mem_map.mp hx
    obtain ⟨hmem, hlt⟩ := List.mem_filter.mp ha
    obtain ⟨b, hb, heq⟩ := hkept a hmem (of_decide_eq_true hlt)
    refine List.mem_map.mpr ⟨b, List.mem_filter.mpr ⟨hb, ?_⟩, heq⟩
    rw [heq]
    exact hlt
  have hlength := (List.subperm_of_subset (hkeys.sublist (List.filter_sublist.map key)) hsub).length_le
  rw [List.length_map, List.length_map] at hlength
  unfold ahead
  rw [List.countP_eq_length_filter, List.countP_eq_length_filter]
  exact hlength

/-- A walk page by page, up to a page behind which nothing is left, through a table that changes on
the way: a row that is there all the time and never moves forward is on one of the pages. -/
theorem exists_window_of_ahead_le {size n : ℕ} {contents orders : ℕ → List α} {c : K}
    (horders : ∀ k ≤ n, OrderBy key (contents k) (orders k))
    (hkeys : ∀ k ≤ n, ((contents k).map key).Nodup)
    (hstored : ∀ k ≤ n, ∃ a ∈ contents k, key a = c)
    (hahead : ∀ k < n, ahead key c (contents k) ≤ ahead key c (contents (k + 1)))
    (hlast : (contents n).length ≤ (n + 1) * size) :
    ∃ k ≤ n, ∃ a ∈ window size k (orders k), key a = c := by
  have hplace : ∀ k ≤ n, ∃ a, key a = c ∧ (orders k)[ahead key c (contents k)]? = some a := by
    intro k hk
    obtain ⟨a, ha, rfl⟩ := hstored k hk
    exact ⟨a, rfl, (horders k hk).getElem?_ahead (hkeys k hk) ha⟩
  have hshown : ∀ k ≤ n, k * size ≤ ahead key c (contents k) →
      ahead key c (contents k) < (k + 1) * size → ∃ a ∈ window size k (orders k), key a = c := by
    intro k hk hfrom hto
    obtain ⟨a, ha, hat⟩ := hplace k hk
    refine ⟨a, List.mem_of_getElem? (i := ahead key c (contents k) - k * size) ?_, ha⟩
    rw [Nat.succ_mul] at hto
    rw [getElem?_window k _ (by omega), Nat.add_sub_cancel' hfrom]
    exact hat
  by_contra hnever
  -- the row stays behind every page that was asked for
  have hbehind : ∀ k ≤ n, k * size ≤ ahead key c (contents k) := by
    intro k
    induction k with
    | zero => simp
    | succ k ih =>
      intro hk
      have hlt : (k + 1) * size ≤ ahead key c (contents k) := by
        by_contra hto
        exact hnever ⟨k, by omega, hshown k (by omega) (ih (by omega)) (by omega)⟩
      exact hlt.trans (hahead k (by omega))
  obtain ⟨a, -, hat⟩ := hplace n (Nat.le_refl n)
  have hlt : ahead key c (contents n) < (contents n).length := by
    rw [← (horders n (Nat.le_refl n)).length_eq]
    exact (List.getElem?_eq_some_iff.mp hat).1
  exact hnever ⟨n, Nat.le_refl n, hshown n (Nat.le_refl n) (hbehind n (Nat.le_refl n)) (by omega)⟩

end AegisPlatform.Foundations
