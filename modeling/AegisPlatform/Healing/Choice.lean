import AegisPlatform.Healing.Threshold

/-! # Which candidate is chosen

Three ways the choice can go wrong, each with its exact condition. The candidate with the very
test-id of the selector can be outdone by one with a similar test-id and more of everything else;
the selector that is proposed can fit other candidates than the chosen one; and it can be too long.
-/

namespace AegisPlatform.Healing
open Foundations Domain
set_option autoImplicit false
set_option maxHeartbeats 250000

section
variable (sim : Similarity) (hints : SelectorHints) (elements : List DomElement)

/-! ## The exact test-id against a partial one -/

/-- No partial test-id makes up for what it lacks: some candidate with the exact one stays ahead of
it, or before it. -/
def Undisputed : Prop :=
  ∀ other ∈ elements, PartialTestId hints other → ∃ own ∈ elements, ExactTestId hints own ∧
    (extras hints other sim < 30 / 100 + extras hints own sim ∨
      (extras hints other sim = 30 / 100 + extras hints own sim ∧
        elements.idxOf own < elements.idxOf other))

variable {sim hints elements}

theorem unclipped_exact {e : DomElement} (h : ExactTestId hints e) :
    unclipped hints e sim = 60 / 100 + extras hints e sim := by
  rw [unclipped_eq, testIdSignal_exact hints e h]
  rfl

theorem unclipped_partial {e : DomElement} (h : PartialTestId hints e) :
    unclipped hints e sim = 30 / 100 + extras hints e sim := by
  rw [unclipped_eq, testIdSignal_partial hints e h]
  norm_num [wTestid]

theorem not_exact_of_partialTestId {e : DomElement} (h : PartialTestId hints e) :
    ¬ ExactTestId hints e := by
  obtain ⟨wanted, found, -, -, hwanted, hfound, hne, -⟩ := h
  rintro ⟨testId, -, hwanted', hfound'⟩
  rw [hwanted] at hwanted'
  rw [hfound] at hfound'
  exact hne ((Option.some.inj hwanted').trans (Option.some.inj hfound').symm)

/-- Without a matching test-id a candidate never reaches an exact one. -/
theorem unclipped_lt_exact {e own : DomElement} (hexact : ¬ ExactTestId hints e)
    (hpart : ¬ PartialTestId hints e) (hown : ExactTestId hints own) :
    unclipped hints e sim < unclipped hints own sim := by
  have hnone : ¬ 0 < (testIdSignal hints e).weight := fun hpos =>
    (testIdSignal_pos hints e hpos).elim hexact hpart
  have hzero := le_antisymm (not_lt.mp hnone) (testIdSignal_nonneg hints e)
  have hextras := (extras_bounds hints e sim).2
  have hownExtras := (extras_bounds hints own sim).1
  rw [unclipped_exact hown, unclipped_eq, hzero]
  linarith

/-- An exact test-id comes before a partial one by what the other signals add. -/
theorem beats_partial_iff {own other : DomElement} (hown : ExactTestId hints own)
    (hother : PartialTestId hints other) :
    Beats (fun e => unclipped hints e sim) elements own other ↔
      extras hints other sim < 30 / 100 + extras hints own sim ∨
        (extras hints other sim = 30 / 100 + extras hints own sim ∧
          elements.idxOf own < elements.idxOf other) := by
  have hsum : (60 : ℚ) / 100 + extras hints own sim =
      30 / 100 + (30 / 100 + extras hints own sim) := by ring
  unfold Beats
  dsimp only
  rw [unclipped_exact hown, unclipped_partial hother, hsum, add_lt_add_iff_left, add_right_inj]

theorem exact_winner_iff {best : DomElement} (hbest : best ∈ winner sim hints elements)
    (hexact : ∃ e ∈ elements, ExactTestId hints e) :
    ExactTestId hints best ↔ Undisputed sim hints elements := by
  rw [winner_eq] at hbest
  rw [argmax_iff_beaten (P := ExactTestId hints) hbest]
  constructor
  · intro hbeaten other hother hpart
    obtain ⟨own, hown, hownExact, hbeats⟩ := hbeaten other hother (not_exact_of_partialTestId hpart)
    exact ⟨own, hown, hownExact, (beats_partial_iff hownExact hpart).mp hbeats⟩
  · intro hundisputed other hother hnot
    by_cases hpart : PartialTestId hints other
    · obtain ⟨own, hown, hownExact, hahead⟩ := hundisputed other hother hpart
      exact ⟨own, hown, hownExact, (beats_partial_iff hownExact hpart).mpr hahead⟩
    · obtain ⟨own, hown, hownExact⟩ := hexact
      exact ⟨own, hown, hownExact, Or.inl (unclipped_lt_exact hnot hpart hownExact)⟩

/-! ## Candidates that share a selector -/

/-- The candidates that carry `value` under `key`, which is what `[key="value"]` designates. -/
def carriers (elements : List DomElement) (key value : String) : ℕ :=
  elements.countP fun e => e.attributes.lookup key == some value

/-- The test-id of the element, under the alias it is printed with, designates nothing else. -/
def Alone (elements : List DomElement) (e : DomElement) : Prop :=
  ∃ key value, firstPresent testIdKeys e.attributes = some (key, value) ∧
    carriers elements key value = 1

/-- A test-id is printed under the first alias that is present. -/
theorem firstPresent_testId {e : DomElement} {testId : String} (h : e.testId = some testId) :
    ∃ key ∈ testIdKeys, firstPresent testIdKeys e.attributes = some (key, testId) ∧
      e.toSelector = attrSelector key testId := by
  have hfirst : (firstPresent testIdKeys e.attributes).map Prod.snd = some testId := by
    rw [← h]
    unfold firstPresent DomElement.testId
    rw [List.map_findSome?]
    congr 1
    funext key
    rw [Function.comp_apply, Option.map_map]
    exact Option.map_id'
  obtain ⟨⟨key, value⟩, hpresent, rfl⟩ := Option.map_eq_some_iff.mp hfirst
  refine ⟨key, firstPresent_mem hpresent, hpresent, ?_⟩
  unfold DomElement.toSelector
  rw [hpresent]

end

section
variable [Unicode] {sim : Similarity} {findAll : HtmlParser} {selector html : String}
  {targetText : Option String} {elements : List DomElement} {proposal : HealingProposal}

/-- On a page with the very test-id of the selector, the proposal is made for a candidate that
carries it exactly if that test-id is undisputed. -/
theorem exact_testId_wins_iff (hparse : parseDom findAll html = .ok elements)
    (hexact : ∃ e ∈ elements, ExactTestId (hintsFor selector targetText) e) :
    (∃ best ∈ winner sim (hintsFor selector targetText) elements,
      (propose sim findAll selector html targetText).map HealingProposal.healedSelector =
        .ok (some best.toSelector) ∧ ExactTestId (hintsFor selector targetText) best) ↔
      Undisputed sim (hintsFor selector targetText) elements := by
  have hpropose : propose sim findAll selector html targetText =
      .ok (proposeFrom sim (hintsFor selector targetText) elements) := by
    unfold propose
    rw [hparse]
    rfl
  have hproposed : (proposeFrom sim (hintsFor selector targetText) elements).healedSelector.isSome :=
    (proposeFrom_exact hexact).1
  rw [hpropose]
  constructor
  · rintro ⟨best, hbest, -, hown⟩
    exact (exact_winner_iff hbest hexact).mp hown
  · intro hundisputed
    cases hwinner : winner sim (hintsFor selector targetText) elements with
    | none =>
      obtain ⟨e, he, -⟩ := hexact
      rw [(winner_eq_none_iff sim _ elements).mp hwinner] at he
      cases he
    | some best =>
      have hselector := (proposeFrom_winner sim _ elements hwinner).2
      refine ⟨best, rfl, ?_, (exact_winner_iff hwinner hexact).mpr hundisputed⟩
      show Except.ok _ = _
      rw [hselector] at hproposed ⊢
      split at hproposed
      · next hpos => rw [if_pos hpos]
      · exact absurd hproposed Bool.false_ne_true

end

/-! ### The submit page -/

def submitSpan : DomElement :=
  { tag := "span"
    elementId := none
    classes := []
    attributes := [("data-testid", "submit")]
    text := "" }

def submitAllButton : DomElement :=
  { tag := "button"
    elementId := some "go"
    classes := ["primary"]
    attributes := [("id", "go"), ("class", "primary"), ("data-testid", "submit-all")]
    text := "Go" }

def spanTag : Tag := ⟨"span", [("data-testid", .single "submit")], ""⟩

def buttonTag : Tag :=
  ⟨"button", [("id", .single "go"), ("class", .multi ["primary"]),
    ("data-testid", .single "submit-all")], "Go"⟩

def spanHtml : String := "<span data-testid=\"submit\"></span>"

def buttonHtml : String :=
  "<button id=\"go\" class=\"primary\" data-testid=\"submit-all\">Go</button>"

def submitSelector : String := "button#go.primary[data-testid=\"submit\"]"

theorem submitSpan_exact : let _ : Unicode := asciiUnicode
    ExactTestId (hintsFor submitSelector (some "Go")) submitSpan :=
  ⟨"submit", by decide, by decide +kernel, rfl⟩

/-- A button with a test-id and nothing else. -/
def testIdButton (testId : String) : DomElement :=
  { tag := "button"
    elementId := none
    classes := []
    attributes := [("data-testid", testId)]
    text := "" }

def testIdTag (testId : String) : Tag := ⟨"button", [("data-testid", .single testId)], ""⟩

def testIdHtml (testId : String) : String := "<button data-testid=\"" ++ testId ++ "\"></button>"

/-- The span, a button that shares its test-id, and one with a test-id that contains it. -/
def submitPage : List DomElement := [submitSpan, testIdButton "submit", testIdButton "submit-all"]

def submitPageHtml : String := spanHtml ++ testIdHtml "submit" ++ testIdHtml "submit-all"

def submitPageParser : HtmlParser :=
  bodyParser "" [spanTag, testIdTag "submit", testIdTag "submit-all"]

theorem parse_submitPage : let _ : Unicode := asciiUnicode
    parseDom submitPageParser submitPageHtml = .ok submitPage := by
  intro _
  decide +kernel

theorem submitSpan_wins :
    let _ : Unicode := asciiUnicode
    ∃ best ∈ winner cardSimilarity (hintsFor submitSelector (some "Go")) submitPage,
      (propose cardSimilarity submitPageParser submitSelector submitPageHtml (some "Go")).map
          HealingProposal.healedSelector = .ok (some best.toSelector) ∧
        ExactTestId (hintsFor submitSelector (some "Go")) best := by
  intro _
  refine (exact_testId_wins_iff parse_submitPage
    ⟨submitSpan, List.mem_cons_self, submitSpan_exact⟩).mpr ?_
  intro other hother _
  refine ⟨submitSpan, List.mem_cons_self, submitSpan_exact, Or.inl ?_⟩
  have hahead : ∀ other ∈ submitPage,
      extras (hintsFor submitSelector (some "Go")) other cardSimilarity <
        30 / 100 + extras (hintsFor submitSelector (some "Go")) submitSpan cardSimilarity := by
    decide +kernel
  exact hahead other hother

/-- With the id, the class, the tag and the text of the selector, `submit-all` is chosen instead of
`submit`. -/
theorem submitAll_counterexample :
    let _ : Unicode := asciiUnicode
    let hints := hintsFor submitSelector (some "Go")
    parseDom (bodyParser "Go" [spanTag, buttonTag]) (spanHtml ++ buttonHtml) =
        .ok [submitSpan, submitAllButton] ∧
      ExactTestId hints submitSpan ∧
      winner cardSimilarity hints [submitSpan, submitAllButton] = some submitAllButton ∧
      ¬ ExactTestId hints submitAllButton ∧
      60 / 100 ≤
        (proposeFrom cardSimilarity hints [submitSpan, submitAllButton]).confidence := by
  intro _ hints
  have hwanted : hints.testId = some "submit" := by decide +kernel
  refine ⟨by decide +kernel, submitSpan_exact, by decide +kernel, ?_, by decide +kernel⟩
  rintro ⟨testId, -, hhints, hfound⟩
  have hbutton : submitAllButton.testId = some "submit-all" := rfl
  rw [hbutton] at hfound
  rw [hwanted, ← hfound] at hhints
  exact absurd hhints (by decide)

section
variable [Unicode] {sim : Similarity} {findAll : HtmlParser} {selector html : String}
  {targetText : Option String} {elements : List DomElement} {proposal : HealingProposal}

end

/-- A bare tag that the first candidate has chooses it. -/
theorem proposeFrom_onlyTag_first (sim : Similarity) {hints : SelectorHints} (h : OnlyTag hints)
    {e : DomElement} (htag : TagMatches hints e) (rest : List DomElement) :
    (proposeFrom sim hints (e :: rest)).healedSelector = some e.toSelector := by
  have hweight : ∀ e', unclipped hints e' sim = (tagSignal hints e').weight := by
    intro e'
    rw [← score_eq_unclipped, score_onlyTag hints e' sim h]
  have hown : (tagSignal hints e).weight = wTag := by
    have hnamed : (truthy hints.tag && hints.tag == some e.tag) = true := by
      rw [Bool.and_eq_true, beq_iff_eq]
      exact htag
    unfold tagSignal
    rw [if_pos hnamed]
    rfl
  have hfirst : winner sim hints (e :: rest) = some e := by
    rw [winner_eq]
    refine argmax_head fun other _ => ?_
    rw [hweight, hweight, hown]
    exact (tagSignal_bounds hints other).2
  have hpos : 0 < unclipped hints e sim := by
    rw [hweight, hown]
    norm_num [wTag]
  rw [(proposeFrom_winner sim hints _ hfirst).2, if_pos hpos]

/-- Every candidate printed longer than `bound` is beaten by one that is not; or nothing scores. -/
def ShortWins (bound : ℕ) (sim : Similarity) (hints : SelectorHints)
    (elements : List DomElement) : Prop :=
  (∀ e ∈ elements, unclipped hints e sim = 0) ∨
  ∀ other ∈ elements, bound < other.printedLength →
    ∃ own ∈ elements, own.printedLength ≤ bound ∧
      Beats (fun e => unclipped hints e sim) elements own other

theorem proposeFrom_short_iff (bound : ℕ) (sim : Similarity) (hints : SelectorHints)
    (elements : List DomElement) :
    (∀ s ∈ (proposeFrom sim hints elements).healedSelector, s.length ≤ bound) ↔
      ShortWins bound sim hints elements := by
  unfold ShortWins
  cases hwinner : winner sim hints elements with
  | none =>
    rw [(winner_eq_none_iff sim hints elements).mp hwinner]
    exact ⟨fun _ => Or.inl fun e he => absurd he List.not_mem_nil, fun _ _ hs => by cases hs⟩
  | some best =>
    have hmax := fun e he => unclipped_le_winner sim hints elements (e := e) hwinner he
    rw [(proposeFrom_winner sim hints elements hwinner).2]
    rw [winner_eq] at hwinner
    have hmem : best ∈ elements := List.argmax_mem hwinner
    have hbeaten := argmax_iff_beaten (P := fun e => e.printedLength ≤ bound) hwinner
    simp only [not_le] at hbeaten
    by_cases hpos : 0 < unclipped hints best sim
    · rw [if_pos hpos, ← hbeaten, ← length_toSelector]
      constructor
      · exact fun h => Or.inr (h _ rfl)
      · rintro (hzero | hshort) s hs
        · exact absurd (hzero best hmem) (ne_of_gt hpos)
        · rwa [← Option.some.inj hs]
    · rw [if_neg hpos]
      refine ⟨fun _ => Or.inl fun e he => ?_, fun _ s hs => by cases hs⟩
      exact le_antisymm ((hmax e he).trans (not_lt.mp hpos)) (unclipped_bounds hints e sim).1

end AegisPlatform.Healing
