import AegisPlatform.Healing.Engine

/-! # The LLM strategy

`healing/llm.py` with `with_timeout` of `core/resilience.py`. The provider is outside the source: a
call of `client.messages.create` does anything to the world and comes back with a message, with an
exception, or not in time. So are `json.loads`, `float` and `str` of the language, which are
parameters. What is sent apart from the prompt is constant and left out.

`propose` turns every exception into no proposal; `claude_returns` is that promise.
-/

namespace AegisPlatform.Healing
open Foundations Domain Core
set_option autoImplicit false
set_option maxHeartbeats 250000

structure ContentBlock where
  type : String
  text : String
deriving DecidableEq

structure Message where
  stopReason : Option String
  content : List ContentBlock
deriving DecidableEq

/-- How `client.messages.create` ends under `asyncio.wait_for`. -/
inductive Reply
  | message (message : Message)
  | raised (error : String)
  | timedOut
deriving DecidableEq

inductive LlmError
  | aegis (e : AegisError)
  | exception (message : String)
deriving DecidableEq

/-- `json.loads`, `float(value)` and `str(value)`; `none` where Python raises. -/
structure JsonLibrary where
  loads : String → Option Json
  float : Json → Option ℚ
  str : Json → String

/-- What `ClaudeHealingLLM` is configured with, and the world it calls. -/
structure Claude (W : Type) where
  create : String → W → Reply × W
  clock : W → ℚ
  json : JsonLibrary
  timeoutSeconds : ℚ

/-- `f"{x:.1f}"` of a positive number. -/
def fixedOne (x : ℚ) : String :=
  let tenths := roundHalfEven (x * 10)
  toString (tenths / 10) ++ "." ++ toString (tenths % 10)

/-- The error of `with_timeout`. -/
def timeoutError (seconds : ℚ) : AegisError :=
  .init .serviceUnavailable ("Operation timed out after " ++ fixedOne seconds ++ "s.") "timeout"

/-! ## Decoding -/

/-- `bool(value)` of a JSON value. -/
def jsonTruthy : Option Json → Bool
  | none => false
  | some .null => false
  | some (.bool b) => b
  | some (.num q) => q != 0
  | some (.str s) => s != ""
  | some (.arr items) => !items.isEmpty
  | some (.obj fields) => !fields.isEmpty

def stripped (s : String) : String := String.ofList (strip s.toList)

-- `(data.get("selector") or "").strip()`: only a string has a `strip`
def decodeSelector (value : Option Json) : Except LlmError String :=
  if jsonTruthy value then
    match value with
    | some (.str s) => .ok (stripped s)
    | _ => .error (.exception "AttributeError")
  else .ok ""

-- `float(data.get("confidence", 0.0))`
def decodeConfidence (json : JsonLibrary) : Option Json → Except LlmError ℚ
  | none => .ok 0
  | some value =>
    match json.float value with
    | none => .error (.exception "ValueError")
    | some q => .ok q

-- `str(data.get("rationale", "")).strip() or "LLM proposal."`
def decodeRationale (json : JsonLibrary) (value : Option Json) : String :=
  let text := match value with
    | none => ""
    | some (.str s) => s
    | some value => json.str value
  if stripped text = "" then "LLM proposal." else stripped text

def llmProposal (selector rationale : String) (confidence : ℚ) : HealingProposal :=
  { healedSelector := if selector = "" then none else some selector
    strategy := .llm
    confidence := max 0 (min 1 confidence)
    rationale := rationale
    confidence_nonneg := le_max_left _ _
    confidence_le_one := max_le zero_le_one (min_le_left _ _) }

def decode (json : JsonLibrary) (text : String) : Except LlmError HealingProposal :=
  match json.loads text with
  | none => .error (.exception "JSONDecodeError")
  | some (.obj data) => do
    let selector ← decodeSelector (data.lookup "selector")
    let confidence ← decodeConfidence json (data.lookup "confidence")
    return llmProposal selector (decodeRationale json (data.lookup "rationale")) confidence
  -- no other JSON value has a `get`
  | some _ => .error (.exception "AttributeError")

/-- What is made of a message: a refusal and a message without text are no proposal. -/
def readMessage (json : JsonLibrary) (message : Message) :
    Except LlmError (Option HealingProposal) :=
  if message.stopReason = some "refusal" then .ok none
  else
    match message.content.find? fun b => b.type == "text" with
    | none => .ok none
    | some block => if block.text = "" then .ok none else (decode json block.text).map some

/-! ## The strategy -/

namespace Claude

variable {W : Type}

/-- `_invoke`. -/
def invoke (claude : Claude W) (prompt : String) (w : W) :
    Outcome LlmError (Option HealingProposal) × W :=
  match claude.create prompt w with
  | (.timedOut, w) => (.raised (.aegis (timeoutError claude.timeoutSeconds)), w)
  | (.raised error, w) => (.raised (.exception error), w)
  | (.message message, w) =>
    match readMessage claude.json message with
    | .error e => (.raised e, w)
    | .ok proposal => (.returned proposal, w)

def maxDomChars : ℕ := 6000

def prompt (originalSelector html : String) (context : Option String) : String :=
  "Broken selector:\n" ++ originalSelector ++ "\n\nElement description: " ++
    (pyOr context (some "(none provided)")).getD "" ++
    "\n\nCurrent DOM snapshot (truncated):\n" ++ String.ofList (html.toList.take maxDomChars)

/-- The breaker of a new `ClaudeHealingLLM`, with the reset timeout of the class. -/
def newBreaker : CircuitBreaker ℚ := .init "claude-healing" 4 30

/-- The call of the provider through the breaker. -/
def ask (claude : Claude W) (prompt : String) (s : CircuitBreaker ℚ × W) :
    CallResult LlmError (Option HealingProposal) × CircuitBreaker ℚ × W :=
  s.1.call claude.clock (claude.invoke prompt) s.2

/-- `except Exception` around the call: a rejection and an error are no proposal. -/
def degrade : CallResult LlmError (Option HealingProposal) →
    Outcome String (Option HealingProposal)
  | .rejected _ => .returned none
  | .completed (.returned proposal) => .returned proposal
  | .completed (.raised _) => .returned none
  | .completed .cancelled => .cancelled

/-- `ClaudeHealingLLM`, whose state is its breaker and the world. -/
def healingLLM (claude : Claude W) : HealingLLM (CircuitBreaker ℚ × W) where
  propose := fun originalSelector html context s =>
    let (result, s) := claude.ask (prompt originalSelector html context) s
    (degrade result, s)

theorem invoke_not_cancelled (claude : Claude W) (prompt : String) (w : W) :
    (claude.invoke prompt w).1 ≠ .cancelled := by
  unfold invoke
  split
  · exact nofun
  · exact nofun
  · split
    · exact nofun
    · exact nofun

theorem invoke_snd (claude : Claude W) (prompt : String) (w : W) :
    (claude.invoke prompt w).2 = (claude.create prompt w).2 := by
  unfold invoke
  generalize claude.create prompt w = reply
  obtain ⟨answer, w'⟩ := reply
  cases answer with
  | timedOut => rfl
  | raised error => rfl
  | message message =>
    dsimp only
    cases readMessage claude.json message with
    | error e => rfl
    | ok proposal => rfl

/-- Whatever the provider does, the strategy returns a proposal or none. -/
theorem claude_returns (claude : Claude W) (originalSelector html : String)
    (context : Option String) (s : CircuitBreaker ℚ × W) :
    ∃ proposal, (claude.healingLLM.propose originalSelector html context s).1 =
      .returned proposal := by
  show ∃ proposal, degrade (claude.ask (prompt originalSelector html context) s).1 = _
  unfold ask
  by_cases hopen : (s.1.maybeHalfOpen (claude.clock s.2)).state = .opened
  · rw [CircuitBreaker.call_opened _ hopen]
    exact ⟨none, rfl⟩
  · rw [CircuitBreaker.call_admitted _ hopen]
    have hinvoke := claude.invoke_not_cancelled (prompt originalSelector html context) s.2
    cases houtcome : (claude.invoke (prompt originalSelector html context) s.2).1 with
    | returned proposal => exact ⟨proposal, rfl⟩
    | raised error => exact ⟨none, rfl⟩
    | cancelled => exact absurd houtcome hinvoke

end Claude

end AegisPlatform.Healing
