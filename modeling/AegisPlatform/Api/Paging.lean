import AegisPlatform.Core.Pagination
import AegisPlatform.Foundations.Paging
import AegisPlatform.Api.Handlers
import Mathlib.Algebra.Order.Floor.Div

/-! # `GET /runs` and `GET /suites`, page by page

Both list newest first, by `created_at` alone, and every page is a query of its own. Rows of one
instant may come in another order each time, so a client that walks through the pages misses rows
and sees others twice as soon as such rows stand on both sides of a page boundary.
-/

namespace AegisPlatform.Api
open Foundations Domain Core Db Services
set_option autoImplicit false
set_option maxHeartbeats 250000

variable {ρ : Type}

structure Page (ρ : Type) where
  items : List ρ
  total : ℕ
  page : ℤ
  size : ℤ
  pages : ℤ

def Page.create (items : List ρ) (total : ℕ) (params : PaginationParams) : Page ρ where
  items := items
  total := total
  page := params.page
  size := params.size
  pages := if params.size ≠ 0 then Int.fdiv (total + params.size - 1) params.size else 0

/-- `BaseRepository.list` of the rows a filter keeps, which the query returned as `ordered`. -/
def BaseRepository.list (rows ordered : List ρ) (pagination : PaginationParams) : List ρ × ℕ :=
  ((ordered.drop pagination.offset.toNat).take pagination.limit.toNat, rows.length)

/-- A list endpoint with the checks of its dependencies and its response model. `none` is any
answer but a 200. -/
def listPage (readable : ρ → Bool) (rows ordered : List ρ) (page size : ℤ) : Option (Page ρ) :=
  match getPagination page size with
  | none => none
  | some pagination =>
    let (items, total) := BaseRepository.list rows ordered pagination
    if items.all readable then some (Page.create items total pagination) else none

def matching (db : Database) : Option Uuid → List TestRun
  | none => db.runs.rows
  | some suiteId => db.runsOf suiteId

/-- `list_runs`. -/
def listRuns (db : Database) (suiteId : Option Uuid) (ordered : List TestRun) (page size : ℤ) :
    Option (Page TestRun) :=
  listPage (fun _ => true) (matching db suiteId) ordered page size

/-- `list_suites`: `SuiteRead` has no null `tags`. -/
def listSuites (db : Database) (ordered : List TestSuite) (page size : ℤ) :
    Option (Page TestSuite) :=
  listPage (fun suite => suite.tags.isSome) db.suites.rows ordered page size

/-! ## A walk through the pages -/

def itemsOf (response : Option (Page ρ)) : List ρ := response.elim [] Page.items

/-- What a client that asks for all pages of one size is promised. -/
structure Complete (rows : List ρ) (size : ℕ) (get : ℕ → Option (Page ρ)) : Prop where
  answered : ∀ k, ∃ page, get (k + 1) = some page ∧ page.total = rows.length ∧
    page.pages = (rows.length ⌈/⌉ size : ℕ)
  once : ((List.range (rows.length ⌈/⌉ size)).flatMap fun k => itemsOf (get (k + 1))).Perm rows
  full : ∀ k, k + 1 < rows.length ⌈/⌉ size → (itemsOf (get (k + 1))).length = size
  beyond : ∀ k, rows.length ⌈/⌉ size ≤ k → itemsOf (get (k + 1)) = []

section
variable {readable : ρ → Bool} {rows ordered : List ρ} {size : ℕ}

theorem listPage_eq (readable : ρ → Bool) (rows ordered : List ρ) (hpos : 1 ≤ size)
    (hmax : size ≤ 100) (k : ℕ) :
    listPage readable rows ordered (k + 1 : ℕ) size =
      if (window size k ordered).all readable then
        some (Page.create (window size k ordered) rows.length ⟨(k + 1 : ℕ), size⟩)
      else none := by
  have hpagination : getPagination (k + 1 : ℕ) size = some ⟨(k + 1 : ℕ), size⟩ := by
    refine getPagination_eq_some_iff.mpr ⟨rfl, ?_, ?_, ?_⟩
    · omega
    · omega
    · change (size : ℤ) ≤ 100
      omega
  have hoffset : (PaginationParams.offset ⟨(k + 1 : ℕ), size⟩).toNat = k * size := by
    change (((k + 1 : ℕ) - 1 : ℤ) * size).toNat = k * size
    rw [Nat.cast_succ, add_sub_cancel_right, ← Nat.cast_mul, Int.toNat_natCast]
  unfold listPage
  rw [hpagination]
  simp only [BaseRepository.list, hoffset]
  rfl

theorem pages_create (items : List ρ) (total : ℕ) (page : ℤ) (hpos : 1 ≤ size) :
    (Page.create items total ⟨page, size⟩).pages = (total ⌈/⌉ size : ℕ) := by
  change (if (size : ℤ) ≠ 0 then Int.fdiv (total + size - 1) size else 0) = _
  rw [if_pos (by omega), Nat.ceilDiv_eq_add_pred_div, Int.fdiv_eq_ediv_of_nonneg _ (by omega)]
  have hcast : (total + size - 1 : ℤ) = ((total + size - 1 : ℕ) : ℤ) := by omega
  rw [hcast, Int.natCast_ediv]

theorem ceilDiv_le_iff (total : ℕ) {k : ℕ} (hpos : 1 ≤ size) :
    total ⌈/⌉ size ≤ k ↔ total ≤ k * size := by
  rw [ceilDiv_le_iff_le_mul hpos, Nat.mul_comm]

theorem itemsOf_listPage (hpos : 1 ≤ size) (hmax : size ≤ 100) (k : ℕ)
    (h : (window size k ordered).all readable = true) :
    itemsOf (listPage readable rows ordered (k + 1 : ℕ) size) = window size k ordered := by
  rw [listPage_eq readable rows ordered hpos hmax, if_pos h]
  rfl

theorem readable_of_answer (hpos : 1 ≤ size) (hmax : size ≤ 100) {k : ℕ} {page : Page ρ}
    (h : listPage readable rows ordered (k + 1 : ℕ) size = some page) :
    (window size k ordered).all readable = true := by
  rw [listPage_eq readable rows ordered hpos hmax] at h
  split at h
  · assumption
  · cases h

variable {K : Type} [LinearOrder K] {key : ρ → K}

theorem window_readable (h : OrderBy key rows ordered) (hreadable : ∀ r ∈ rows, readable r = true)
    (k : ℕ) : (window size k ordered).all readable = true := by
  refine List.all_eq_true.mpr fun r hr => hreadable r (h.perm.subset ?_)
  exact List.mem_of_mem_drop (List.mem_of_mem_take hr)

theorem complete_of_unsplit {orders : ℕ → List ρ} (hpos : 1 ≤ size) (hmax : size ≤ 100)
    (hunsplit : Unsplit key rows size) (hreadable : ∀ r ∈ rows, readable r = true)
    (horders : ∀ k, OrderBy key rows (orders k)) :
    Complete rows size fun k => listPage readable rows (orders k) k size := by
  have hitems : ∀ k, itemsOf (listPage readable rows (orders (k + 1)) (k + 1 : ℕ) size) =
      window size k (orders (k + 1)) := fun k =>
    itemsOf_listPage hpos hmax k (window_readable (horders (k + 1)) hreadable k)
  constructor
  · intro k
    refine ⟨Page.create (window size k (orders (k + 1))) rows.length ⟨(k + 1 : ℕ), size⟩, ?_, rfl,
      pages_create _ rows.length (k + 1 : ℕ) hpos⟩
    rw [listPage_eq readable rows _ hpos hmax,
      if_pos (window_readable (horders (k + 1)) hreadable k)]
  · simp only [hitems]
    exact pages_perm_of_unsplit hpos ((ceilDiv_le_iff rows.length hpos).mp (le_refl _)) hunsplit
      fun k => horders (k + 1)
  · intro k hk
    rw [hitems]
    apply length_window
    rw [(horders (k + 1)).length_eq]
    have hlt := mt (ceilDiv_le_iff rows.length hpos).mpr (Nat.not_le_of_lt hk)
    omega
  · intro k hk
    rw [hitems]
    apply window_eq_nil
    rw [(horders (k + 1)).length_eq]
    exact (ceilDiv_le_iff rows.length hpos).mp hk

/-- Whatever orders the queries choose, a walk is complete iff no tie is split and every row can be
rendered. -/
theorem complete_iff (hrows : rows.Nodup) (hpos : 1 ≤ size) (hmax : size ≤ 100) :
    (∀ orders : ℕ → List ρ, (∀ k, OrderBy key rows (orders k)) →
      Complete rows size fun k => listPage readable rows (orders k) k size) ↔
      Unsplit key rows size ∧ ∀ r ∈ rows, readable r = true := by
  constructor
  · intro h
    have hshown : ∀ orders : ℕ → List ρ, (∀ k, OrderBy key rows (orders k)) →
        (pages size (rows.length ⌈/⌉ size) orders).Perm rows ∧
          ∀ k, (window size k (orders k)).all readable = true := by
      intro orders horders
      have hcomplete := h (fun k => orders (k - 1)) fun k => horders (k - 1)
      have hwindow : ∀ k, (window size k (orders k)).all readable = true := by
        intro k
        obtain ⟨page, hpage, -⟩ := hcomplete.answered k
        exact readable_of_answer hpos hmax hpage
      have honce := hcomplete.once
      have hitems : ∀ k, itemsOf (listPage readable rows (orders (k + 1 - 1)) (k + 1 : ℕ) size) =
          window size k (orders k) := fun k => itemsOf_listPage hpos hmax k (hwindow k)
      simp only [hitems] at honce
      exact ⟨honce, hwindow⟩
    have hn := (ceilDiv_le_iff rows.length hpos).mp (le_refl _)
    refine ⟨(pages_perm_iff hrows hpos hn).mp fun orders horders => (hshown orders horders).1, ?_⟩
    intro r hr
    obtain ⟨hperm, hwindow⟩ := hshown (fun _ => newest key rows) fun _ => OrderBy.newest key rows
    obtain ⟨k, -, hk⟩ := List.mem_flatMap.mp (hperm.symm.subset hr)
    exact List.all_eq_true.mp (hwindow k) r hk
  · rintro ⟨hunsplit, hreadable⟩ orders horders
    exact complete_of_unsplit hpos hmax hunsplit hreadable horders

end

/-! ## The two endpoints -/

section
variable (db : Database)

theorem matching_nodup (suiteId : Option Uuid) : (matching db suiteId).Nodup := by
  have hrows : db.runs.rows.Nodup := List.Nodup.of_map _ (Table.nodup db.runs)
  cases suiteId with
  | none => exact hrows
  | some suiteId => exact hrows.filter _

/-- For every table content, filter and admitted size: a walk through `GET /runs` is complete for
every choice of orders iff no two runs created at one instant stand on both sides of a page
boundary, and so is one through `GET /suites`, if moreover no suite has null tags. -/
theorem walks_complete_iff (size : ℕ) (hpos : 1 ≤ size) (hmax : size ≤ 100)
    (runCreatedAt : TestRun → DateTime) (suiteCreatedAt : TestSuite → DateTime)
    (suiteId : Option Uuid) :
    ((∀ orders : ℕ → List TestRun,
        (∀ k, OrderBy runCreatedAt (matching db suiteId) (orders k)) →
          Complete (matching db suiteId) size fun k => listRuns db suiteId (orders k) k size) ↔
      Unsplit runCreatedAt (matching db suiteId) size) ∧
    ((∀ orders : ℕ → List TestSuite,
        (∀ k, OrderBy suiteCreatedAt db.suites.rows (orders k)) →
          Complete db.suites.rows size fun k => listSuites db (orders k) k size) ↔
      Unsplit suiteCreatedAt db.suites.rows size ∧
        ∀ suite ∈ db.suites.rows, suite.tags.isSome = true) := by
  have hsuites : db.suites.rows.Nodup := List.Nodup.of_map _ (Table.nodup db.suites)
  exact ⟨(complete_iff (matching_nodup db suiteId) hpos hmax).trans (and_iff_left fun _ _ => rfl),
    complete_iff hsuites hpos hmax⟩

/-- With rows created one after the other, newest first is one of the orders. -/
theorem orderBy_reverse {rows : List ρ} {createdAt : ρ → DateTime}
    (h : rows.Pairwise fun a b => createdAt a ≤ createdAt b) : OrderBy createdAt rows rows.reverse :=
  ⟨rows.reverse_perm, List.pairwise_reverse.mpr h⟩

/-- What `handleRead` answers is the page of that order. -/
theorem handleRead_listRuns (user : User) (suiteId : Option Uuid) (pagination : Pagination) :
    ∃ page, listRuns db suiteId (matching db suiteId).reverse pagination.page pagination.size =
        some page ∧
      handleRead db user (.listRuns suiteId pagination) = .runs page.items page.total := by
  obtain ⟨page, size, hpage, hpos, hmax⟩ := pagination
  obtain ⟨k, rfl⟩ := Nat.exists_eq_add_of_le' hpage
  refine ⟨Page.create (window size k (matching db suiteId).reverse) (matching db suiteId).length
    ⟨(k + 1 : ℕ), size⟩, ?_, ?_⟩
  · unfold listRuns
    rw [listPage_eq _ _ _ hpos hmax, if_pos (List.all_eq_true.mpr fun _ _ => rfl)]
  · cases suiteId with
    | none => rfl
    | some suiteId => rfl

end

/-! ## Two runs of one instant -/

def twinDb : Database :=
  { loginDb with
    runs := loginDb.runs.insertAll (fun n run => { run with id := n }) (fun _ _ => rfl) [loginRun] }

theorem twin_order (k : ℕ) : OrderBy (fun _ => 0) twinDb.runs.rows
    (if k = 1 then twinDb.runs.rows else twinDb.runs.rows.reverse) := by
  split
  · exact ⟨List.Perm.refl _, List.pairwise_of_forall fun _ _ => le_refl 0⟩
  · exact ⟨List.reverse_perm _, List.pairwise_of_forall fun _ _ => le_refl 0⟩

/-- The second page of size 1 shows the run of the first page again, and no page the other one. -/
theorem twin_shown_twice :
    ∃ orders : ℕ → List TestRun, (∀ k, OrderBy (fun _ => 0) (matching twinDb none) (orders k)) ∧
      (itemsOf (listRuns twinDb none (orders 1) 1 1)).map TestRun.id = [0] ∧
      (itemsOf (listRuns twinDb none (orders 2) 2 1)).map TestRun.id = [0] ∧
      ¬ Complete (matching twinDb none) 1 fun k => listRuns twinDb none (orders k) k 1 := by
  refine ⟨_, twin_order, by decide, by decide, fun h => ?_⟩
  exact absurd h.once (by decide)

/-- On a page of two they are shown together. -/
theorem twin_walks_iff :
    (∀ orders : ℕ → List TestRun, (∀ k, OrderBy (fun _ => 0) (matching twinDb none) (orders k)) →
      Complete (matching twinDb none) 2 fun k => listRuns twinDb none (orders k) k (2 : ℕ)) ∧
    ¬ ∀ orders : ℕ → List TestRun, (∀ k, OrderBy (fun _ => 0) (matching twinDb none) (orders k)) →
      Complete (matching twinDb none) 1 fun k => listRuns twinDb none (orders k) k (1 : ℕ) := by
  have htwo := walks_complete_iff twinDb 2 (by decide) (by decide) (fun _ => 0)
    (fun _ => 0) none
  have hone := walks_complete_iff twinDb 1 (by decide) (by decide) (fun _ => 0)
    (fun _ => 0) none
  exact ⟨htwo.1.mpr (by decide), fun h => absurd (hone.1.mp h) (by decide)⟩

end AegisPlatform.Api
