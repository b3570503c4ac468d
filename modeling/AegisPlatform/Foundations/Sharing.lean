import AegisPlatform.Foundations.PubSub
import AegisPlatform.Foundations.Runs

/-! # Many systems in one

A list of sessions, each with the key it works on. Seen from one key it is the list of the sessions
on that key, in the order they began; `rank` is the place a session has there. A move of a session
is a move of that session in the list of its key, and is not seen from any other.

`Run.project` is the rule for runs: if every step is a step of the part one looks at, or leaves that
part alone, then the part has made a run of its own.
-/

namespace AegisPlatform.Foundations
set_option autoImplicit false
set_option maxHeartbeats 250000

section
variable {K α : Type} [DecidableEq K] {k k' : K} {l : List (K × α)} {i j : ℕ} {a b : α}

/-- How many sessions on `k` began before session `i`. -/
def rank (k : K) (l : List (K × α)) (i : ℕ) : ℕ := (onChannel k (l.take i)).length

theorem onChannel_cons (k' : K) (a : α) (l : List (K × α)) :
    onChannel k ((k', a) :: l) = if k' = k then a :: onChannel k l else onChannel k l := by
  unfold onChannel
  by_cases h : k' = k
  · simp [h]
  · simp [h]

theorem getElem?_rank (h : l[i]? = some (k, a)) : (onChannel k l)[rank k l i]? = some a := by
  induction l generalizing i with
  | nil => cases h
  | cons p l ih =>
    obtain ⟨k₀, a₀⟩ := p
    unfold rank
    cases i with
    | zero =>
      obtain ⟨rfl, rfl⟩ := Prod.mk.inj (Option.some.inj h)
      simp [onChannel_cons]
    | succ i =>
      have hrest := ih (i := i) (by simpa using h)
      unfold rank at hrest
      rw [List.take_succ_cons, onChannel_cons, onChannel_cons]
      by_cases hk : k₀ = k
      · simpa [hk] using hrest
      · simpa [hk] using hrest

/-- A session on `k` moves, seen from `k`. -/
theorem onChannel_set_self (h : l[i]? = some (k, a)) (b : α) :
    onChannel k (l.set i (k, b)) = (onChannel k l).set (rank k l i) b := by
  induction l generalizing i with
  | nil => cases h
  | cons p l ih =>
    obtain ⟨k₀, a₀⟩ := p
    unfold rank
    cases i with
    | zero =>
      obtain ⟨rfl, rfl⟩ := Prod.mk.inj (Option.some.inj h)
      simp [onChannel_cons]
    | succ i =>
      have hrest := ih (i := i) (by simpa using h)
      unfold rank at hrest
      rw [List.set_cons_succ, List.take_succ_cons, onChannel_cons, onChannel_cons, onChannel_cons]
      by_cases hk : k₀ = k
      · simpa [hk] using hrest
      · simpa [hk] using hrest

/-- A session on another key moves, seen from `k`. -/
theorem onChannel_set_other (h : l[i]? = some (k', a)) (hk : k' ≠ k) (b : α) :
    onChannel k (l.set i (k', b)) = onChannel k l := by
  induction l generalizing i with
  | nil => cases h
  | cons p l ih =>
    obtain ⟨k₀, a₀⟩ := p
    cases i with
    | zero =>
      obtain ⟨rfl, rfl⟩ := Prod.mk.inj (Option.some.inj h)
      simp [onChannel_cons, hk]
    | succ i =>
      rw [List.set_cons_succ, onChannel_cons, onChannel_cons, ih (by simpa using h)]

theorem length_onChannel_set (h : l[j]? = some (k', a)) (b : α) :
    (onChannel k (l.set j (k', b))).length = (onChannel k l).length := by
  by_cases hk : k' = k
  · subst hk
    rw [onChannel_set_self h, List.length_set]
  · rw [onChannel_set_other h hk]

/-- The places of the sessions stay when one of them moves, -/
theorem rank_set (h : l[j]? = some (k', a)) (b : α) (i : ℕ) :
    rank k (l.set j (k', b)) i = rank k l i := by
  unfold rank
  rw [List.take_set]
  by_cases hj : j < i
  · refine length_onChannel_set (a := a) ?_ b
    rw [List.getElem?_take_of_lt hj, h]
  · rw [List.set_eq_of_length_le]
    rw [List.length_take]
    omega

/-- and when another one begins. -/
theorem rank_snoc (hi : i < l.length) (p : K × α) : rank k (l ++ [p]) i = rank k l i := by
  unfold rank
  rw [List.take_append_of_le_length (Nat.le_of_lt hi)]

end

/-! ## Runs of a part -/

theorem Run.project {S L S' L' : Type} {step : S → L → S → Prop} {part : S' → L' → S' → Prop}
    {I : S → Prop} (view : S → S') (keep : ∀ s l t, I s → step s l t → I t)
    (sim : ∀ s l t, I s → step s l t → view t = view s ∨ ∃ l', part (view s) l' (view t))
    {s t : S} {ls : List L} (h : Run step s ls t) (hs : I s) :
    ∃ ls', Run part (view s) ls' (view t) := by
  induction h with
  | nil => exact ⟨[], Run.nil _⟩
  | snoc hbefore hlast ih =>
    obtain ⟨ls', hls'⟩ := ih
    rcases sim _ _ _ (hbefore.invariant keep hs) hlast with hsame | ⟨l', hl'⟩
    · rw [hsame]
      exact ⟨ls', hls'⟩
    · exact ⟨ls' ++ [l'], Run.snoc hls' hl'⟩

end AegisPlatform.Foundations
