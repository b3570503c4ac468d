import Mathlib.Data.Int.Notation
import Mathlib.Logic.Basic

/-! # Offset and limit

`core/pagination.py`, and `get_pagination` of `api/deps.py`, which admits the query parameters.
`PaginationParams` clamps what it is given, so its window is never negative; what `get_pagination`
admits it leaves as it is.
-/

namespace AegisPlatform.Core
set_option autoImplicit false
set_option maxHeartbeats 250000

structure PaginationParams where
  page : ℤ
  size : ℤ
deriving DecidableEq, Repr

namespace PaginationParams

def maxSize : ℤ := 100

/-- `__post_init__`. -/
def init (page : ℤ := 1) (size : ℤ := 20) : PaginationParams where
  page := if page < 1 then 1 else page
  size := if size < 1 then 1 else if size > maxSize then maxSize else size

def offset (p : PaginationParams) : ℤ := (p.page - 1) * p.size

def limit (p : PaginationParams) : ℤ := p.size

theorem init_bounds (page size : ℤ) :
    1 ≤ (init page size).page ∧ 1 ≤ (init page size).size ∧ (init page size).size ≤ maxSize := by
  simp only [init, maxSize]
  refine ⟨?_, ?_, ?_⟩
  · split <;> omega
  · repeat' split
    all_goals omega
  · repeat' split
    all_goals omega

end PaginationParams

/-- `get_pagination`: `none` is the 422 of a parameter out of range. -/
def getPagination (page : ℤ := 1) (size : ℤ := 20) : Option PaginationParams :=
  if 1 ≤ page ∧ 1 ≤ size ∧ size ≤ PaginationParams.maxSize then some (PaginationParams.init page size)
  else none

theorem getPagination_eq_some_iff {page size : ℤ} {p : PaginationParams} :
    getPagination page size = some p ↔
      p = ⟨page, size⟩ ∧ 1 ≤ page ∧ 1 ≤ size ∧ size ≤ PaginationParams.maxSize := by
  unfold getPagination PaginationParams.init
  split
  · next h =>
    rw [if_neg (by omega), if_neg (by omega), if_neg (by omega), Option.some.injEq, eq_comm]
    exact ⟨fun heq => ⟨heq, h⟩, fun heq => heq.1⟩
  · next h => exact ⟨fun heq => (Option.some_ne_none p heq.symm).elim, fun heq => absurd heq.2 h⟩

end AegisPlatform.Core
