import AegisPlatform.Foundations.PyNumber
import AegisPlatform.Domain.Schemas
import AegisPlatform.Healing.Snapshot
import Mathlib.Data.Finset.Card
import Mathlib.Data.List.MinMax

/-! # The heuristic healer

`healing/strategies.py`, with its weights as exact rationals. A candidate collects a signal for
each thing it shares with the broken selector; the candidate with the largest total is proposed,
the first of several in document order.
-/

namespace AegisPlatform.Healing
open Foundations Domain
set_option autoImplicit false
set_option maxHeartbeats 250000

def wTestid : ℚ := 60 / 100
def wId : ℚ := 18 / 100
def wText : ℚ := 10 / 100
def wClass : ℚ := 7 / 100
def wTag : ℚ := 3 / 100
def wAttr : ℚ := 2 / 100

/-- `_ratio`, the similarity of two texts by `SequenceMatcher`. -/
structure Similarity where
  ratio : String → String → ℚ
  nonneg : ∀ a b, 0 ≤ ratio a b
  le_one : ∀ a b, ratio a b ≤ 1

-- two empty sets have no union to divide by, and no similarity
def jaccard (a b : Finset String) : ℚ := (a ∩ b).card / (a ∪ b).card

structure ScoredCandidate where
  element : DomElement
  score : ℚ
  reasons : List String
  score_le_one : score ≤ 1

/-! ## Signals -/

/-- What a signal adds to the score, with the reason given for it. -/
abbrev Signal := Option (ℚ × String)

def Signal.weight (s : Signal) : ℚ := (s.map Prod.fst).getD 0

/-- `a in b` on strings. -/
def isSubstring (a b : String) : Bool := decide (a.toList <:+: b.toList)

section
variable (hints : SelectorHints) (e : DomElement)

def testIdSignal : Signal :=
  match hints.testId, e.testId with
  | some wanted, some found =>
    if wanted = "" ∨ found = "" then none
    else if wanted = found then some (wTestid, "test-id exact (" ++ found ++ ")")
    else if isSubstring wanted found || isSubstring found wanted then
      some (wTestid * (1 / 2), "test-id partial")
    else none
  | _, _ => none

def idSignal (sim : Similarity) : Signal :=
  match hints.elementId, e.elementId with
  | some wanted, some found =>
    if wanted = "" ∨ found = "" then none
    else if wanted = found then some (wId, "id exact (" ++ found ++ ")")
    else if sim.ratio wanted found > 6 / 10 then some (wId * (1 / 2), "id similar")
    else none
  | _, _ => none

def textSignal (sim : Similarity) : Signal :=
  match hints.text with
  | some wanted =>
    if wanted = "" ∨ e.text = "" then none
    else if sim.ratio wanted e.text > 5 / 10 then
      some (wText * sim.ratio wanted e.text, "text ~" ++ percent (sim.ratio wanted e.text))
    else none
  | none => none

def classSignal : Signal :=
  let similarity := jaccard hints.classes.toFinset e.classes.toFinset
  if similarity > 0 then some (wClass * similarity, "class overlap " ++ percent similarity)
  else none

def tagSignal : Signal :=
  if truthy hints.tag && hints.tag == some e.tag then some (wTag, "tag <" ++ e.tag ++ ">")
  else none

def attrSignal : Signal :=
  let shared := otherAttrs.filter fun attr =>
    truthy (hints.attributes.lookup attr) &&
      hints.attributes.lookup attr == e.attributes.lookup attr
  if shared ≠ [] then
    some (wAttr * (shared.length / otherAttrs.length), "attrs " ++ ",".intercalate shared)
  else none

def signals (sim : Similarity) : List Signal :=
  [testIdSignal hints e, idSignal hints e sim, textSignal hints e sim, classSignal hints e,
    tagSignal hints e, attrSignal hints e]

def score (sim : Similarity) : ScoredCandidate :=
  { element := e
    score := min ((signals hints e sim).map Signal.weight).sum 1
    reasons := (signals hints e sim).filterMap fun s => s.map Prod.snd
    score_le_one := min_le_right _ _ }

end

/-! ## The proposal -/

theorem no_confidence : (0 : ℚ) ≤ 0 := le_refl 0

theorem no_confidence_le_one : (0 : ℚ) ≤ 1 := zero_le_one

def noProposal (rationale : String) : HealingProposal :=
  { healedSelector := none
    strategy := .heuristic
    confidence := 0
    rationale := rationale
    confidence_nonneg := no_confidence
    confidence_le_one := no_confidence_le_one }

def proposalOf (best : ScoredCandidate) : HealingProposal :=
  if h : best.score ≤ 0 then
    noProposal "No candidate shared any signal with the broken selector."
  else
    { healedSelector := some best.element.toSelector
      strategy := .heuristic
      confidence := roundDigits 3 best.score
      rationale := "Matched on " ++ "; ".intercalate best.reasons ++ "."
      confidence_nonneg := roundDigits_nonneg (le_of_lt (not_le.mp h))
      confidence_le_one := roundDigits_le_one best.score_le_one }

section
variable [Unicode]

/-- The text of the step stands in for a text the selector does not carry. -/
def hintsFor (selector : String) (targetText : Option String) : SelectorHints :=
  let hints := parseSelector selector
  if truthy targetText && !truthy hints.text then { hints with text := targetText } else hints

/-- The proposal for the elements of a page. -/
def proposeFrom (sim : Similarity) (hints : SelectorHints) (elements : List DomElement) :
    HealingProposal :=
  match elements.argmax fun e => (score hints e sim).score with
  | none => noProposal "No interactable elements in the DOM snapshot."
  | some best => proposalOf (score hints best sim)

/-- `HeuristicHealer.propose`. -/
def propose (sim : Similarity) (findAll : HtmlParser) (selector html : String)
    (targetText : Option String) : Except String HealingProposal :=
  (parseDom findAll html).map (proposeFrom sim (hintsFor selector targetText))

end

/-! ## What a signal can weigh -/

@[simp] theorem weight_none : Signal.weight none = 0 := rfl

@[simp] theorem weight_some (w : ℚ) (reason : String) : Signal.weight (some (w, reason)) = w := rfl

theorem jaccard_nonneg (a b : Finset String) : 0 ≤ jaccard a b := by
  unfold jaccard
  positivity

theorem jaccard_le_one (a b : Finset String) : jaccard a b ≤ 1 := by
  have hsub : a ∩ b ⊆ a ∪ b := fun x hx => Finset.mem_union_left b (Finset.mem_inter.mp hx).1
  have hcard : ((a ∩ b).card : ℚ) ≤ (a ∪ b).card := by exact_mod_cast Finset.card_le_card hsub
  exact div_le_one_of_le₀ hcard (by positivity)

theorem jaccard_self {a : Finset String} (h : a.Nonempty) : jaccard a a = 1 := by
  have hpos : (0 : ℚ) < a.card := by exact_mod_cast Finset.card_pos.mpr h
  unfold jaccard
  rw [Finset.inter_self, Finset.union_self]
  exact div_self (ne_of_gt hpos)

/-- The element carries the very test-id the selector asks for. -/
def ExactTestId (hints : SelectorHints) (e : DomElement) : Prop :=
  ∃ testId, testId ≠ "" ∧ hints.testId = some testId ∧ e.testId = some testId

section
variable (hints : SelectorHints) (e : DomElement) (sim : Similarity)

theorem testIdSignal_exact (h : ExactTestId hints e) : (testIdSignal hints e).weight = wTestid := by
  obtain ⟨testId, hne, hwanted, hfound⟩ := h
  simp [testIdSignal, hwanted, hfound, hne]

theorem testIdSignal_not_exact (h : ¬ ExactTestId hints e) :
    0 ≤ (testIdSignal hints e).weight ∧ (testIdSignal hints e).weight ≤ wTestid * (1 / 2) := by
  have hzero : (0 : ℚ) ≤ wTestid * (1 / 2) := by norm_num [wTestid]
  unfold testIdSignal
  split
  · next wanted found hwanted hfound =>
    split
    · exact ⟨le_refl 0, hzero⟩
    · next hempty =>
      split
      · next heq =>
        exact absurd ⟨found, fun h => hempty (Or.inr h), heq ▸ hwanted, hfound⟩ h
      · split
        · exact ⟨hzero, le_refl _⟩
        · exact ⟨le_refl 0, hzero⟩
  · exact ⟨le_refl 0, hzero⟩

theorem textSignal_bounds :
    0 ≤ (textSignal hints e sim).weight ∧ (textSignal hints e sim).weight ≤ wText := by
  have hweight : (0 : ℚ) ≤ wText := by norm_num [wText]
  unfold textSignal
  split
  · next wanted _ =>
    split
    · exact ⟨le_refl 0, hweight⟩
    · split
      · exact ⟨mul_nonneg hweight (sim.nonneg _ _), mul_le_of_le_one_right hweight (sim.le_one _ _)⟩
      · exact ⟨le_refl 0, hweight⟩
  · exact ⟨le_refl 0, hweight⟩

theorem classSignal_weight :
    (classSignal hints e).weight = wClass * jaccard hints.classes.toFinset e.classes.toFinset := by
  unfold classSignal
  dsimp only
  split
  · rfl
  · next h =>
    have hzero := le_antisymm (not_lt.mp h) (jaccard_nonneg _ _)
    rw [hzero, mul_zero]
    rfl

theorem classSignal_bounds :
    0 ≤ (classSignal hints e).weight ∧ (classSignal hints e).weight ≤ wClass := by
  have hweight : (0 : ℚ) ≤ wClass := by norm_num [wClass]
  rw [classSignal_weight]
  exact ⟨mul_nonneg hweight (jaccard_nonneg _ _),
    mul_le_of_le_one_right hweight (jaccard_le_one _ _)⟩

theorem tagSignal_bounds :
    0 ≤ (tagSignal hints e).weight ∧ (tagSignal hints e).weight ≤ wTag := by
  have hweight : (0 : ℚ) ≤ wTag := by norm_num [wTag]
  unfold tagSignal
  split
  · exact ⟨hweight, le_refl _⟩
  · exact ⟨le_refl 0, hweight⟩

theorem idSignal_bounds :
    0 ≤ (idSignal hints e sim).weight ∧ (idSignal hints e sim).weight ≤ wId := by
  have hweight : (0 : ℚ) ≤ wId := by norm_num [wId]
  have hhalf : wId * (1 / 2) ≤ wId := mul_le_of_le_one_right hweight (by norm_num)
  unfold idSignal
  split
  · split
    · exact ⟨le_refl 0, hweight⟩
    · split
      · exact ⟨hweight, le_refl _⟩
      · split
        · exact ⟨mul_nonneg hweight (by norm_num), hhalf⟩
        · exact ⟨le_refl 0, hweight⟩
  · exact ⟨le_refl 0, hweight⟩

theorem attrSignal_bounds :
    0 ≤ (attrSignal hints e).weight ∧ (attrSignal hints e).weight ≤ wAttr := by
  have hweight : (0 : ℚ) ≤ wAttr := by norm_num [wAttr]
  unfold attrSignal
  dsimp only
  split
  · have hshared := List.length_filter_le (fun attr => truthy (hints.attributes.lookup attr) &&
      hints.attributes.lookup attr == e.attributes.lookup attr) otherAttrs
    have hpart : ((otherAttrs.filter fun attr => truthy (hints.attributes.lookup attr) &&
        hints.attributes.lookup attr == e.attributes.lookup attr).length : ℚ) /
          otherAttrs.length ≤ 1 :=
      div_le_one_of_le₀ (by exact_mod_cast hshared) (by positivity)
    exact ⟨mul_nonneg hweight (by positivity), mul_le_of_le_one_right hweight hpart⟩
  · exact ⟨le_refl 0, hweight⟩

/-- The element has the tag the selector names. -/
def TagMatches (hints : SelectorHints) (e : DomElement) : Prop :=
  truthy hints.tag = true ∧ hints.tag = some e.tag

theorem tagSignal_pos_iff : 0 < (tagSignal hints e).weight ↔ TagMatches hints e := by
  have hweight : (0 : ℚ) < wTag := by norm_num [wTag]
  unfold tagSignal TagMatches
  split
  · next h =>
    rw [Bool.and_eq_true, beq_iff_eq] at h
    exact ⟨fun _ => h, fun _ => hweight⟩
  · next h =>
    rw [Bool.and_eq_true, beq_iff_eq] at h
    exact ⟨fun hpos => absurd hpos (lt_irrefl 0), fun hboth => absurd hboth h⟩

/-- An element without an id and without any of the attributes the scorer compares. -/
structure Plain (e : DomElement) : Prop where
  id : e.elementId = none
  attrs : ∀ attr ∈ otherAttrs, e.attributes.lookup attr = none

/-- Four of the six signals can reach a plain element. -/
theorem score_plain (h : Plain e) : (score hints e sim).score =
    min ((testIdSignal hints e).weight + (textSignal hints e sim).weight +
      (classSignal hints e).weight + (tagSignal hints e).weight) 1 := by
  have hid : idSignal hints e sim = none := by
    unfold idSignal
    rw [h.id]
    split
    · next hfound => cases hfound
    · rfl
  have hattr : attrSignal hints e = none := by
    have hshared : (otherAttrs.filter fun attr => truthy (hints.attributes.lookup attr) &&
        hints.attributes.lookup attr == e.attributes.lookup attr) = [] := by
      rw [List.filter_eq_nil_iff]
      intro attr hattr
      rw [h.attrs attr hattr]
      cases hints.attributes.lookup attr with
      | none => simp [truthy]
      | some value => simp
    unfold attrSignal
    rw [hshared]
    rfl
  show min ((signals hints e sim).map Signal.weight).sum 1 = _
  unfold signals
  rw [hid, hattr]
  simp only [List.map_cons, List.map_nil, List.sum_cons, List.sum_nil, weight_none, zero_add,
    add_zero, add_assoc]

/-- A selector that carries nothing but a tag. -/
structure OnlyTag (hints : SelectorHints) : Prop where
  elementId : hints.elementId = none
  classes : hints.classes = []
  attributes : hints.attributes = []
  text : truthy hints.text = false

/-- A bare tag is the whole score of what has it, for any element at all. -/
theorem score_onlyTag (h : OnlyTag hints) :
    (score hints e sim).score = (tagSignal hints e).weight := by
  have htestId : testIdSignal hints e = none := by
    unfold testIdSignal SelectorHints.testId
    rw [h.attributes]
    rfl
  have hid : idSignal hints e sim = none := by
    unfold idSignal
    rw [h.elementId]
  have htext : textSignal hints e sim = none := by
    unfold textSignal
    have hfalsy := h.text
    cases htext : hints.text with
    | none => rfl
    | some wanted =>
      rw [htext] at hfalsy
      have hempty : wanted = "" := by simpa [truthy] using hfalsy
      exact if_pos (Or.inl hempty)
  have hclass : classSignal hints e = none := by
    unfold classSignal jaccard
    rw [h.classes]
    simp
  have hattr : attrSignal hints e = none := by
    unfold attrSignal
    rw [h.attributes]
    rfl
  have hbound := (tagSignal_bounds hints e).2
  show min ((signals hints e sim).map Signal.weight).sum 1 = _
  unfold signals
  rw [htestId, hid, htext, hclass, hattr]
  simp only [List.map_cons, List.map_nil, List.sum_cons, List.sum_nil, weight_none, zero_add,
    add_zero]
  refine min_eq_left (hbound.trans ?_)
  norm_num [wTag]

/-- An exact test-id is enough for the threshold. -/
theorem le_score_of_exact (h : Plain e) (hexact : ExactTestId hints e) :
    60 / 100 ≤ (score hints e sim).score := by
  have htext := (textSignal_bounds hints e sim).1
  have hclass := (classSignal_bounds hints e).1
  have htag := (tagSignal_bounds hints e).1
  rw [score_plain hints e sim h, testIdSignal_exact hints e hexact, le_min_iff]
  unfold wTestid
  constructor
  · linarith
  · norm_num

/-- Without it, the partial match and everything else stay below the threshold. -/
theorem score_le_of_not_exact (h : Plain e) (hexact : ¬ ExactTestId hints e) :
    (score hints e sim).score ≤ 50 / 100 := by
  have htestId := (testIdSignal_not_exact hints e hexact).2
  have htext := (textSignal_bounds hints e sim).2
  have hclass := (classSignal_bounds hints e).2
  have htag := (tagSignal_bounds hints e).2
  unfold wTestid at htestId
  unfold wText at htext
  unfold wClass at hclass
  unfold wTag at htag
  rw [score_plain hints e sim h]
  refine (min_le_left _ _).trans ?_
  linarith

theorem testIdSignal_nonneg : 0 ≤ (testIdSignal hints e).weight := by
  by_cases hexact : ExactTestId hints e
  · rw [testIdSignal_exact hints e hexact]
    norm_num [wTestid]
  · exact (testIdSignal_not_exact hints e hexact).1

/-- An element with the very classes the selector asks for scores. -/
theorem score_pos_of_classes (h : Plain e) (hclasses : e.classes.toFinset = hints.classes.toFinset)
    (hne : hints.classes ≠ []) : 0 < (score hints e sim).score := by
  have htestId := testIdSignal_nonneg hints e
  have htext := (textSignal_bounds hints e sim).1
  have htag := (tagSignal_bounds hints e).1
  have hclass : (classSignal hints e).weight = wClass := by
    have hnonempty : hints.classes.toFinset.Nonempty := by
      rwa [List.toFinset_nonempty_iff]
    rw [classSignal_weight, hclasses, jaccard_self hnonempty, mul_one]
  have hpos : 0 < wClass := by norm_num [wClass]
  rw [score_plain hints e sim h, hclass, lt_min_iff]
  constructor
  · linarith
  · exact zero_lt_one

end

theorem score_le_best {sim : Similarity} {hints : SelectorHints} {elements : List DomElement}
    {best e : DomElement} (hbest : best ∈ elements.argmax fun e => (score hints e sim).score)
    (he : e ∈ elements) : (score hints e sim).score ≤ (score hints best sim).score :=
  List.le_of_mem_argmax (f := fun e => (score hints e sim).score) he hbest

theorem proposalOf_nonpos {best : ScoredCandidate} (h : best.score ≤ 0) :
    (proposalOf best).healedSelector = none ∧ (proposalOf best).confidence = 0 := by
  unfold proposalOf
  rw [dif_pos h]
  exact ⟨rfl, rfl⟩

theorem proposalOf_pos {best : ScoredCandidate} (h : 0 < best.score) :
    (proposalOf best).healedSelector = some best.element.toSelector ∧
      (proposalOf best).confidence = roundDigits 3 best.score := by
  unfold proposalOf
  rw [dif_neg (not_le.mpr h)]
  exact ⟨rfl, rfl⟩

/-- Everything a proposal for the elements of a page can be. -/
theorem proposeFrom_cases (sim : Similarity) (hints : SelectorHints)
    (elements : List DomElement) :
    ((∀ e ∈ elements, (score hints e sim).score ≤ 0) ∧
      (proposeFrom sim hints elements).healedSelector = none ∧
      (proposeFrom sim hints elements).confidence = 0) ∨
    ∃ best ∈ elements.argmax fun e => (score hints e sim).score, 0 < (score hints best sim).score ∧
      (proposeFrom sim hints elements).healedSelector = some best.toSelector ∧
      (proposeFrom sim hints elements).confidence =
        roundDigits 3 (score hints best sim).score := by
  unfold proposeFrom
  cases hbest : elements.argmax fun e => (score hints e sim).score with
  | none =>
    have hempty := List.argmax_eq_none.mp hbest
    refine Or.inl ⟨?_, rfl, rfl⟩
    rw [hempty]
    exact fun e he => absurd he List.not_mem_nil
  | some best =>
    by_cases hscore : (score hints best sim).score ≤ 0
    · exact Or.inl ⟨fun e he => (List.le_of_mem_argmax he hbest).trans hscore,
        proposalOf_nonpos hscore⟩
    · exact Or.inr ⟨best, rfl, not_le.mp hscore, proposalOf_pos (not_le.mp hscore)⟩

theorem proposeFrom_isSome_iff (sim : Similarity) (hints : SelectorHints)
    (elements : List DomElement) :
    (proposeFrom sim hints elements).healedSelector.isSome = true ↔
      ∃ e ∈ elements, 0 < (score hints e sim).score := by
  rcases proposeFrom_cases sim hints elements with
    ⟨hzero, hnone, -⟩ | ⟨best, hbest, hpos, hselector, -⟩
  · rw [hnone]
    refine ⟨fun h => (Bool.false_ne_true h).elim, ?_⟩
    rintro ⟨e, he, hpos⟩
    exact absurd hpos (not_lt.mpr (hzero e he))
  · rw [hselector]
    exact ⟨fun _ => ⟨best, List.argmax_mem hbest, hpos⟩, fun _ => rfl⟩

/-- A bare tag finds nothing exactly where no element has it. -/
theorem proposeFrom_onlyTag (sim : Similarity) {hints : SelectorHints} (h : OnlyTag hints)
    (elements : List DomElement) :
    (proposeFrom sim hints elements).healedSelector = none ↔
      ∀ e ∈ elements, ¬ TagMatches hints e := by
  have hscore : ∀ e, 0 < (score hints e sim).score ↔ TagMatches hints e := by
    intro e
    rw [score_onlyTag hints e sim h]
    exact tagSignal_pos_iff hints e
  rw [← Option.not_isSome_iff_eq_none, proposeFrom_isSome_iff]
  simp only [hscore, not_exists, not_and]

end AegisPlatform.Healing
