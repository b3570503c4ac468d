import AegisPlatform.Db.Models

/-! # Columns and the values bound to them

The column types of `db/models.py` and what PostgreSQL takes for each. A column declared as
`Mapped[datetime | None]` alone is a `DateTime()` without a time zone, and every datetime the code
makes is `datetime.now(UTC)`. An enumeration is stored by the name of its member, in a VARCHAR(32).
`created_at` and `updated_at` are `func.now()` on the server and bind nothing.
-/

namespace AegisPlatform.Db
open Foundations Domain
set_option autoImplicit false
set_option maxHeartbeats 250000

inductive SqlType
  | string (length : ℕ)
  | text
  | integer
  | bigint
  | boolean
  | float
  | json
  | uuid
  | dateTime (timezone : Bool)
deriving DecidableEq

inductive SqlValue
  | null
  | str (s : String)
  | int (n : ℤ)
  | bool (b : Bool)
  | float (q : ℚ)
  | json (value : Json)
  | uuid (id : Uuid)
  | dateTime (aware : Bool) (time : DateTime)

/-- The integers of `width` bits with a sign. -/
def InBits (width : ℕ) (n : ℤ) : Prop := -2 ^ (width - 1) ≤ n ∧ n < 2 ^ (width - 1)

instance (width : ℕ) (n : ℤ) : Decidable (InBits width n) :=
  inferInstanceAs (Decidable (_ ∧ _))

def SqlType.holds : SqlType → SqlValue → Bool
  | _, .null => true
  | .string length, .str s => s.length ≤ length
  | .text, .str _ => true
  | .integer, .int n => InBits 32 n
  | .bigint, .int n => InBits 64 n
  | .boolean, .bool _ => true
  | .float, .float _ => true
  | .json, .json _ => true
  | .uuid, .uuid _ => true
  | .dateTime timezone, .dateTime aware _ => aware == timezone
  | _, _ => false

namespace SqlType

theorem holds_null (type : SqlType) : type.holds .null = true := by cases type <;> rfl

theorem holds_string {length : ℕ} {s : String} :
    (string length).holds (.str s) = true ↔ s.length ≤ length := decide_eq_true_iff

theorem holds_integer {n : ℤ} : integer.holds (.int n) = true ↔ InBits 32 n := decide_eq_true_iff

theorem holds_bigint {n : ℤ} : bigint.holds (.int n) = true ↔ InBits 64 n := decide_eq_true_iff

theorem holds_dateTime {timezone aware : Bool} {time : DateTime} :
    (dateTime timezone).holds (.dateTime aware time) = true ↔ aware = timezone := beq_iff_eq

theorem holds_text (s : String) : text.holds (.str s) = true := rfl

theorem holds_boolean (b : Bool) : boolean.holds (.bool b) = true := rfl

theorem holds_float (q : ℚ) : float.holds (.float q) = true := rfl

theorem holds_json (value : Json) : json.holds (.json value) = true := rfl

theorem holds_uuid (id : Uuid) : uuid.holds (.uuid id) = true := rfl

attribute [simp] holds_null holds_string holds_integer holds_bigint holds_dateTime holds_text
  holds_boolean holds_float holds_json holds_uuid

end SqlType

structure Binding where
  column : String
  type : SqlType
  value : SqlValue

/-- Every value fits its column. -/
def Fit (bindings : List Binding) : Prop := ∀ b ∈ bindings, b.type.holds b.value = true

instance (bindings : List Binding) : Decidable (Fit bindings) :=
  inferInstanceAs (Decidable (∀ b ∈ bindings, _))

/-- The bindings of an UPDATE that sets these columns. -/
def only (columns : List String) (bindings : List Binding) : List Binding :=
  bindings.filter fun b => columns.contains b.column

def orNull {α : Type} (toSql : α → SqlValue) : Option α → SqlValue
  | none => .null
  | some a => toSql a

/-! ## Enumerations by name -/

def statusName : RunStatus → String
  | .queued => "QUEUED"
  | .running => "RUNNING"
  | .passed => "PASSED"
  | .failed => "FAILED"
  | .error => "ERROR"
  | .cancelled => "CANCELLED"

def triggerName : RunTrigger → String
  | .manual => "MANUAL"
  | .scheduled => "SCHEDULED"
  | .ci => "CI"
  | .webhook => "WEBHOOK"

def actionName : StepAction → String
  | .navigate => "NAVIGATE"
  | .click => "CLICK"
  | .fill => "FILL"
  | .assertText => "ASSERT_TEXT"
  | .assertVisible => "ASSERT_VISIBLE"
  | .wait => "WAIT"

def stepStatusName : StepStatus → String
  | .passed => "PASSED"
  | .failed => "FAILED"
  | .healed => "HEALED"
  | .skipped => "SKIPPED"

def strategyName : HealingStrategy → String
  | .none => "NONE"
  | .heuristic => "HEURISTIC"
  | .llm => "LLM"
  | .hybrid => "HYBRID"

theorem statusName_length (status : RunStatus) : (statusName status).length ≤ 32 := by
  cases status <;> decide

theorem triggerName_length (trigger : RunTrigger) : (triggerName trigger).length ≤ 32 := by
  cases trigger <;> decide

theorem actionName_length (action : StepAction) : (actionName action).length ≤ 32 := by
  cases action <;> decide

theorem stepStatusName_length (status : StepStatus) : (stepStatusName status).length ≤ 32 := by
  cases status <;> decide

theorem strategyName_length (strategy : HealingStrategy) : (strategyName strategy).length ≤ 32 := by
  cases strategy <;> decide

/-! ## Rows -/

def TestSuite.bindings (suite : TestSuite) : List Binding :=
  [⟨"id", .uuid, .uuid suite.id⟩,
    ⟨"name", .string 255, .str suite.name⟩,
    ⟨"slug", .string 255, .str suite.slug⟩,
    ⟨"description", .text, orNull .str suite.description⟩,
    ⟨"target_base_url", .string 2048, .str suite.targetBaseUrl⟩,
    ⟨"tags", .json, .json (match suite.tags with
      | none => .null
      | some tags => .arr (tags.map .str))⟩,
    ⟨"is_active", .boolean, .bool suite.isActive⟩,
    ⟨"owner_id", .uuid, .uuid suite.ownerId⟩]

def TestCase.bindings (case : TestCase) : List Binding :=
  [⟨"id", .uuid, .uuid case.id⟩,
    ⟨"suite_id", .uuid, .uuid case.suiteId⟩,
    ⟨"name", .string 255, .str case.name⟩,
    ⟨"order_index", .integer, .int case.orderIndex⟩,
    ⟨"is_active", .boolean, .bool case.isActive⟩,
    ⟨"steps", .json, .json (.arr case.steps)⟩]

def TestRun.bindings (run : TestRun) : List Binding :=
  [⟨"id", .uuid, .uuid run.id⟩,
    ⟨"suite_id", .uuid, .uuid run.suiteId⟩,
    ⟨"status", .string 32, .str (statusName run.status)⟩,
    ⟨"trigger", .string 32, .str (triggerName run.trigger)⟩,
    ⟨"created_by_id", .uuid, orNull .uuid run.createdById⟩,
    ⟨"idempotency_key", .string 255, orNull .str run.idempotencyKey⟩,
    ⟨"total_cases", .integer, .int run.totalCases⟩,
    ⟨"passed_count", .integer, .int run.passedCount⟩,
    ⟨"failed_count", .integer, .int run.failedCount⟩,
    ⟨"healed_count", .integer, .int run.healedCount⟩,
    ⟨"duration_ms", .integer, orNull .int run.durationMs⟩,
    ⟨"error", .text, orNull .str run.error⟩,
    ⟨"started_at", .dateTime false, orNull (.dateTime true) run.startedAt⟩,
    ⟨"finished_at", .dateTime false, orNull (.dateTime true) run.finishedAt⟩]

def StepResult.bindings (result : StepResult) : List Binding :=
  [⟨"run_id", .uuid, .uuid result.runId⟩,
    ⟨"case_id", .uuid, orNull .uuid result.caseId⟩,
    ⟨"case_name", .string 255, .str result.caseName⟩,
    ⟨"step_index", .integer, .int result.stepIndex⟩,
    ⟨"action", .string 32, .str (actionName result.action)⟩,
    ⟨"status", .string 32, .str (stepStatusName result.status)⟩,
    ⟨"original_selector", .string 1024, orNull .str result.originalSelector⟩,
    ⟨"healed_selector", .string 1024, orNull .str result.healedSelector⟩,
    ⟨"message", .text, orNull .str result.message⟩,
    ⟨"duration_ms", .integer, .int result.durationMs⟩]

def HealingEvent.bindings (event : HealingEvent) : List Binding :=
  [⟨"id", .uuid, .uuid event.id⟩,
    ⟨"run_id", .uuid, .uuid event.runId⟩,
    ⟨"original_selector", .string 1024, .str event.originalSelector⟩,
    ⟨"healed_selector", .string 1024, orNull .str event.healedSelector⟩,
    ⟨"strategy", .string 32, .str (strategyName event.strategy)⟩,
    ⟨"confidence", .float, .float event.confidence⟩,
    ⟨"dom_snapshot_hash", .string 64, orNull .str event.domSnapshotHash⟩,
    ⟨"rationale", .text, orNull .str event.rationale⟩,
    ⟨"succeeded", .boolean, .bool event.succeeded⟩,
    ⟨"accepted", .boolean, orNull .bool event.accepted⟩]

/-! ## When a row fits -/

@[simp] theorem fit_append {as bs : List Binding} : Fit (as ++ bs) ↔ Fit as ∧ Fit bs :=
  List.forall_mem_append

@[simp] theorem fit_flatMap {α : Type} {items : List α} {f : α → List Binding} :
    Fit (items.flatMap f) ↔ ∀ a ∈ items, Fit (f a) := List.forall_mem_flatMap

@[simp] theorem fit_cons {b : Binding} {bs : List Binding} :
    Fit (b :: bs) ↔ b.type.holds b.value = true ∧ Fit bs := List.forall_mem_cons

@[simp] theorem fit_nil : Fit [] := fun _ h => absurd h List.not_mem_nil

@[simp] theorem holds_orNull {α : Type} (type : SqlType) (toSql : α → SqlValue) (value : Option α) :
    type.holds (orNull toSql value) = true ↔ ∀ a ∈ value, type.holds (toSql a) = true := by
  cases value with
  | none => simp [orNull]
  | some a => simp [orNull]

theorem fit_suite (suite : TestSuite) : Fit suite.bindings ↔
    suite.name.length ≤ 255 ∧ suite.slug.length ≤ 255 ∧ suite.targetBaseUrl.length ≤ 2048 := by
  simp [TestSuite.bindings]

theorem fit_case (case : TestCase) : Fit case.bindings ↔
    case.name.length ≤ 255 ∧ InBits 32 case.orderIndex := by
  simp [TestCase.bindings]

theorem fit_result (result : StepResult) : Fit result.bindings ↔
    result.caseName.length ≤ 255 ∧ InBits 32 result.stepIndex ∧
      (∀ s ∈ result.originalSelector, s.length ≤ 1024) ∧
      (∀ s ∈ result.healedSelector, s.length ≤ 1024) ∧ InBits 32 result.durationMs := by
  simp [StepResult.bindings, actionName_length,
    stepStatusName_length]

theorem fit_event (event : HealingEvent) : Fit event.bindings ↔
    event.originalSelector.length ≤ 1024 ∧ (∀ s ∈ event.healedSelector, s.length ≤ 1024) ∧
      ∀ s ∈ event.domSnapshotHash, s.length ≤ 64 := by
  simp [HealingEvent.bindings, strategyName_length]

theorem fit_run (run : TestRun) : Fit run.bindings ↔
    (∀ key ∈ run.idempotencyKey, key.length ≤ 255) ∧ InBits 32 run.totalCases ∧
      InBits 32 run.passedCount ∧ InBits 32 run.failedCount ∧ InBits 32 run.healedCount ∧
      (∀ n ∈ run.durationMs, InBits 32 n) ∧ run.startedAt = none ∧ run.finishedAt = none := by
  simp [TestRun.bindings, statusName_length, triggerName_length,
    Option.eq_none_iff_forall_ne_some]

end AegisPlatform.Db
