import AegisPlatform.Foundations.Selection
import AegisPlatform.Healing.Strategies

/-! # Scores and the threshold

What the six signals add up to, and what a threshold on the rounded confidence says of the score
behind it. The test-id alone carries a candidate to 0.6, and nothing gets there without it.
-/

namespace AegisPlatform.Healing
open Foundations Domain
set_option autoImplicit false
set_option maxHeartbeats 250000

/-- One test-id is part of the other. -/
def PartialTestId (hints : SelectorHints) (e : DomElement) : Prop :=
  ∃ wanted found, wanted ≠ "" ∧ found ≠ "" ∧ hints.testId = some wanted ∧
    e.testId = some found ∧ wanted ≠ found ∧
    (wanted.toList <:+: found.toList ∨ found.toList <:+: wanted.toList)

section
variable (hints : SelectorHints) (e : DomElement) (sim : Similarity)

/-- The score before `min(score, 1.0)`. -/
def unclipped : ℚ := ((signals hints e sim).map Signal.weight).sum

/-- What the other five signals add to the test-id. -/
def extras : ℚ :=
  (idSignal hints e sim).weight + (textSignal hints e sim).weight + (classSignal hints e).weight +
    (tagSignal hints e).weight + (attrSignal hints e).weight

theorem unclipped_eq : unclipped hints e sim = (testIdSignal hints e).weight + extras hints e sim := by
  unfold unclipped signals extras
  simp only [List.map_cons, List.map_nil, List.sum_cons, List.sum_nil]
  ring

theorem extras_bounds : 0 ≤ extras hints e sim ∧ extras hints e sim ≤ 40 / 100 := by
  have hid := idSignal_bounds hints e sim
  have htext := textSignal_bounds hints e sim
  have hclass := classSignal_bounds hints e
  have htag := tagSignal_bounds hints e
  have hattr := attrSignal_bounds hints e
  have hsum : wId + wText + wClass + wTag + wAttr = 40 / 100 := by
    norm_num [wId, wText, wClass, wTag, wAttr]
  unfold extras
  constructor
  · linarith [hid.1, htext.1, hclass.1, htag.1, hattr.1]
  · linarith [hid.2, htext.2, hclass.2, htag.2, hattr.2]

theorem testIdSignal_partial (h : PartialTestId hints e) :
    (testIdSignal hints e).weight = wTestid * (1 / 2) := by
  obtain ⟨wanted, found, hwantedNe, hfoundNe, hwanted, hfound, hne, hpart⟩ := h
  have hsub : (isSubstring wanted found || isSubstring found wanted) = true := by
    simpa [isSubstring] using hpart
  unfold testIdSignal
  rw [hwanted, hfound]
  dsimp only
  rw [if_neg (not_or.mpr ⟨hwantedNe, hfoundNe⟩), if_neg hne, if_pos hsub]
  rfl

/-- The test-id gives nothing to an element it matches neither exactly nor partially. -/
theorem testIdSignal_pos (h : 0 < (testIdSignal hints e).weight) :
    ExactTestId hints e ∨ PartialTestId hints e := by
  unfold testIdSignal at h
  split at h
  · next wanted found hwanted hfound =>
    split at h
    · exact absurd h (lt_irrefl 0)
    · next hempty =>
      obtain ⟨hwantedNe, hfoundNe⟩ := not_or.mp hempty
      split at h
      · next heq => exact Or.inl ⟨found, hfoundNe, heq ▸ hwanted, hfound⟩
      · next hne =>
        split at h
        · next hsub =>
          have hpart : wanted.toList <:+: found.toList ∨ found.toList <:+: wanted.toList := by
            simpa [isSubstring] using hsub
          exact Or.inr ⟨wanted, found, hwantedNe, hfoundNe, hwanted, hfound, hne, hpart⟩
        · exact absurd h (lt_irrefl 0)
  · exact absurd h (lt_irrefl 0)

theorem testIdSignal_le : (testIdSignal hints e).weight ≤ wTestid := by
  by_cases hexact : ExactTestId hints e
  · exact (testIdSignal_exact hints e hexact).le
  · refine (testIdSignal_not_exact hints e hexact).2.trans ?_
    norm_num [wTestid]

/-- The weights sum to one, so the clip does nothing. -/
theorem unclipped_bounds : 0 ≤ unclipped hints e sim ∧ unclipped hints e sim ≤ 1 := by
  have htestId := testIdSignal_le hints e
  have hextras := extras_bounds hints e sim
  unfold wTestid at htestId
  rw [unclipped_eq]
  constructor
  · linarith [testIdSignal_nonneg hints e]
  · linarith

theorem score_eq_unclipped : (score hints e sim).score = unclipped hints e sim :=
  min_eq_left (unclipped_bounds hints e sim).2

end

/-! ## The chosen candidate -/

section
variable (sim : Similarity) (hints : SelectorHints) (elements : List DomElement)

/-- The first of the best candidates. -/
def winner : Option DomElement := elements.argmax fun e => (score hints e sim).score

theorem winner_eq : winner sim hints elements = elements.argmax fun e => unclipped hints e sim := by
  have hkey : (fun e => (score hints e sim).score) = fun e => unclipped hints e sim :=
    funext fun e => score_eq_unclipped hints e sim
  unfold winner
  rw [hkey]

/-- What the proposal says of the chosen candidate. A score of zero is rounded to no confidence, as
is the proposal of an empty page. -/
theorem proposeFrom_winner {best : DomElement} (hbest : best ∈ winner sim hints elements) :
    (proposeFrom sim hints elements).confidence = roundDigits 3 (unclipped hints best sim) ∧
      (proposeFrom sim hints elements).healedSelector =
        if 0 < unclipped hints best sim then some best.toSelector else none := by
  have hpropose : proposeFrom sim hints elements = proposalOf (score hints best sim) := by
    have hargmax : (elements.argmax fun e => (score hints e sim).score) = some best := hbest
    unfold proposeFrom
    rw [hargmax]
  have hscore := score_eq_unclipped hints best sim
  rw [hpropose]
  by_cases hpos : 0 < unclipped hints best sim
  · obtain ⟨hselector, hconfidence⟩ := proposalOf_pos (hscore ▸ hpos)
    rw [hselector, hconfidence, hscore, if_pos hpos]
    exact ⟨rfl, rfl⟩
  · have hzero := le_antisymm (not_lt.mp hpos) (unclipped_bounds hints best sim).1
    obtain ⟨hselector, hconfidence⟩ := proposalOf_nonpos (hscore.trans hzero).le
    rw [hselector, hconfidence, hzero, if_neg (lt_irrefl 0)]
    exact ⟨by norm_num [roundDigits, roundHalfEven], rfl⟩

theorem winner_eq_none_iff : winner sim hints elements = none ↔ elements = [] :=
  List.argmax_eq_none

theorem unclipped_le_winner {best e : DomElement} (hbest : best ∈ winner sim hints elements)
    (he : e ∈ elements) : unclipped hints e sim ≤ unclipped hints best sim := by
  rw [winner_eq] at hbest
  exact List.le_of_mem_argmax (f := fun e => unclipped hints e sim) he hbest

/-! ## The score against the threshold -/

variable {sim hints elements}

/-- An exact test-id is proposed at the threshold. -/
theorem proposeFrom_exact (h : ∃ e ∈ elements, ExactTestId hints e) :
    (proposeFrom sim hints elements).healedSelector.isSome ∧
      60 / 100 ≤ (proposeFrom sim hints elements).confidence := by
  obtain ⟨e, he, hexact⟩ := h
  cases hwinner : winner sim hints elements with
  | none =>
    rw [(winner_eq_none_iff sim hints elements).mp hwinner] at he
    cases he
  | some best =>
    obtain ⟨hconfidence, hselector⟩ := proposeFrom_winner sim hints elements hwinner
    have hscore : ((60 : ℤ) : ℚ) / 100 ≤ unclipped hints best sim := by
      have hbest := unclipped_le_winner sim hints elements hwinner he
      have hextras := (extras_bounds hints e sim).1
      rw [unclipped_eq, testIdSignal_exact hints e hexact] at hbest
      unfold wTestid at hbest
      push_cast
      linarith
    have hround := le_round_percent hscore
    have hpos : 0 < unclipped hints best sim := by
      push_cast at hscore
      linarith
    rw [hselector, if_pos hpos, hconfidence]
    refine ⟨rfl, ?_⟩
    rwa [Int.cast_ofNat] at hround

/-- What is proposed at the threshold shares its test-id with the selector: the other signals end
at 0.4. -/
theorem proposeFrom_confident (h : 60 / 100 ≤ (proposeFrom sim hints elements).confidence) :
    ∃ best ∈ winner sim hints elements,
      (proposeFrom sim hints elements).healedSelector = some best.toSelector ∧
        (ExactTestId hints best ∨ PartialTestId hints best) := by
  cases hwinner : winner sim hints elements with
  | none =>
    have hempty := (winner_eq_none_iff sim hints elements).mp hwinner
    rw [hempty] at h
    have hzero : (proposeFrom sim hints []).confidence = 0 := rfl
    rw [hzero] at h
    norm_num at h
  | some best =>
    obtain ⟨hconfidence, hselector⟩ := proposeFrom_winner sim hints elements hwinner
    rw [hconfidence, le_roundDigits_iff] at h
    have hreach : reach 3 (60 / 100) = 5995 / 10000 := by norm_num [reach]
    have hscore : 5995 / 10000 ≤ unclipped hints best sim := by
      rw [← hreach]
      rcases h with hless | ⟨hsame, -⟩
      · exact hless.le
      · exact hsame.le
    have hextras := (extras_bounds hints best sim).2
    rw [unclipped_eq] at hscore
    have htestId : 0 < (testIdSignal hints best).weight := by linarith
    have hpos : 0 < unclipped hints best sim := by
      rw [unclipped_eq]
      linarith
    rw [hselector, if_pos hpos]
    exact ⟨best, rfl, rfl, testIdSignal_pos hints best htestId⟩

/-- A candidate reaches the threshold with its rounded score; a page that is worth nothing reaches
one that asks for nothing. -/
def Confident (minConfidence : ℚ) (sim : Similarity) (hints : SelectorHints)
    (elements : List DomElement) : Prop :=
  minConfidence ≤ 0 ∨ ∃ e ∈ elements, minConfidence ≤ roundDigits 3 (unclipped hints e sim)

theorem confident_iff (minConfidence : ℚ) (sim : Similarity) (hints : SelectorHints)
    (elements : List DomElement) :
    minConfidence ≤ (proposeFrom sim hints elements).confidence ↔
      Confident minConfidence sim hints elements := by
  unfold Confident
  cases hwinner : winner sim hints elements with
  | none =>
    rw [(winner_eq_none_iff sim hints elements).mp hwinner]
    refine ⟨Or.inl, ?_⟩
    rintro (hle | ⟨e, he, -⟩)
    · exact hle
    · cases he
  | some best =>
    have hmem : best ∈ elements := List.argmax_mem hwinner
    rw [(proposeFrom_winner sim hints elements hwinner).1]
    constructor
    · exact fun h => Or.inr ⟨best, hmem, h⟩
    · rintro (hle | ⟨e, he, hle⟩)
      · exact hle.trans (roundDigits_nonneg (unclipped_bounds hints best sim).1)
      · exact hle.trans (roundDigits_mono (unclipped_le_winner sim hints elements hwinner he))

/-- No score lies outside `[0, 1]`; an exact test-id is proposed at the threshold; and what is
proposed at the threshold shares its test-id with the selector. -/
theorem score_and_threshold (sim : Similarity) (hints : SelectorHints)
    (elements : List DomElement) :
    (∀ e ∈ elements, 0 ≤ unclipped hints e sim ∧ unclipped hints e sim ≤ 1 ∧
      (score hints e sim).score = unclipped hints e sim) ∧
    ((∃ e ∈ elements, ExactTestId hints e) →
      (proposeFrom sim hints elements).healedSelector.isSome ∧
        60 / 100 ≤ (proposeFrom sim hints elements).confidence) ∧
    (60 / 100 ≤ (proposeFrom sim hints elements).confidence →
      ∃ best ∈ winner sim hints elements,
        (proposeFrom sim hints elements).healedSelector = some best.toSelector ∧
          (ExactTestId hints best ∨ PartialTestId hints best)) := by
  refine ⟨fun e _ => ?_, proposeFrom_exact, proposeFrom_confident⟩
  obtain ⟨hnonneg, hle⟩ := unclipped_bounds hints e sim
  exact ⟨hnonneg, hle, score_eq_unclipped hints e sim⟩

/-! ## The score behind the confidence -/

/-- A threshold on the confidence is a threshold on the score moved to where rounding reaches it,
and a candidate below the last digit is proposed without any confidence. -/
theorem rounded_decisions (sim : Similarity) (hints : SelectorHints)
    (elements : List DomElement) :
    (winner sim hints elements = none →
      (proposeFrom sim hints elements).healedSelector = none ∧
        (proposeFrom sim hints elements).confidence = 0) ∧
    ∀ best ∈ winner sim hints elements,
      (∀ t, t ≤ (proposeFrom sim hints elements).confidence ↔
        reach 3 t < unclipped hints best sim ∨
          (reach 3 t = unclipped hints best sim ∧ ⌈t * 10 ^ 3⌉ % 2 = 0)) ∧
      (∀ t, 1 / 2000 < |unclipped hints best sim - t| →
        (t ≤ (proposeFrom sim hints elements).confidence ↔ t ≤ unclipped hints best sim)) ∧
      ((proposeFrom sim hints elements).healedSelector.isSome ↔ 0 < unclipped hints best sim) ∧
      (0 < (proposeFrom sim hints elements).confidence ↔ 1 / 2000 < unclipped hints best sim) := by
  constructor
  · intro hnone
    rw [(winner_eq_none_iff sim hints elements).mp hnone]
    exact ⟨rfl, rfl⟩
  · intro best hbest
    obtain ⟨hconfidence, hselector⟩ := proposeFrom_winner sim hints elements hbest
    rw [hconfidence, hselector]
    refine ⟨fun t => le_roundDigits_iff, fun t => le_roundDigits_iff_of_far, ?_, ?_⟩
    · split
      · next hpos => exact ⟨fun _ => hpos, fun _ => rfl⟩
      · next hzero => exact ⟨fun h => (Bool.false_ne_true h).elim, fun h => absurd h hzero⟩
    · exact roundDigits_pos_iff

end

/-- The similarity of the texts below, as `SequenceMatcher` gives it. -/
def cardSimilarity : Similarity where
  ratio := fun a b => if a = b then 1 else if a = "Add" ∧ b = "Add card" then 6 / 11 else 0
  nonneg := fun a b => by
    split
    · norm_num
    · split <;> norm_num
  le_one := fun a b => by
    split
    · norm_num
    · split <;> norm_num

/-- What a parser finds in a body with the text `text`, whatever is asked for. -/
def bodyParser (text : String) (tags : List Tag) : HtmlParser := fun _ =>
  .ok (⟨"html", [], text⟩ :: ⟨"body", [], text⟩ :: tags)

def cardElement : DomElement :=
  { tag := "button"
    elementId := some "go"
    classes := ["a", "b"]
    attributes := [("id", "go"), ("class", "a b"), ("data-testid", "tt")]
    text := "Add card" }

/-- A score of `0.59954…` is rounded to the threshold of `0.6`. -/
theorem rounded_counterexample :
    let _ : Unicode := asciiUnicode
    let html := "<button id=\"go\" class=\"a b\" data-testid=\"tt\">Add card</button>"
    let findAll := bodyParser "Add card" [⟨"button", [("id", .single "go"),
      ("class", .multi ["a", "b"]), ("data-testid", .single "tt")], "Add card"⟩]
    let hints := hintsFor "button#go.a[data-testid=\"t\"]" (some "Add")
    parseDom findAll html = .ok [cardElement] ∧
      winner cardSimilarity hints [cardElement] = some cardElement ∧
      unclipped hints cardElement cardSimilarity < 60 / 100 ∧
      60 / 100 ≤ (proposeFrom cardSimilarity hints [cardElement]).confidence := by
  intro _ html findAll hints
  exact ⟨by decide +kernel, rfl, by decide +kernel, by decide +kernel⟩

end AegisPlatform.Healing
