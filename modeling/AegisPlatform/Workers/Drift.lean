import AegisPlatform.Healing.Compound
import AegisPlatform.Healing.FreeText
import AegisPlatform.Workers.Browser

/-! # Drift of compound selectors and of text locators

Which steps drift. The executor judges what `parse_selector` makes of the selector; where a value or
a text is mistaken for an id or a class, the judgement is about another selector.
-/

namespace AegisPlatform.Workers
open Foundations Foundations.Regex Domain Healing
set_option autoImplicit false
set_option maxHeartbeats 250000

section
variable [Unicode]

/-- The selector has an id, or nothing that survives a change of the page. -/
def Brittle (sel : CompoundSelector) : Prop :=
  sel.elementId.isSome = true ∨
    sel.classes = [] ∧
      truthy (testIdKeys.findSome? fun key => sel.attributes.lookup key) = false ∧
      ∀ attr ∈ stableAttrs, truthy (sel.attributes.lookup attr) = false

theorem isStable_reads {s : String} {sel : CompoundSelector}
    (h : Reads s sel.tag sel.elementId sel.classes sel.attributes) :
    isStable (parseSelector s) = true ↔ ¬ Brittle sel := by
  have hid : truthy (parseSelector s).elementId = sel.elementId.isSome := by
    rw [h.elementId]
    cases hsel : sel.elementId with
    | none => rfl
    | some i =>
      have hne : i ≠ "" := by
        rintro rfl
        exact (sel.elementId_ok "" hsel).1 rfl
      simp [truthy, hne]
  have hclasses : (parseSelector s).classes.isEmpty = true ↔ sel.classes = [] := by
    rw [List.isEmpty_iff, List.eq_nil_iff_forall_not_mem, List.eq_nil_iff_forall_not_mem]
    simp only [h.classes]
  have htest : (parseSelector s).testId =
      testIdKeys.findSome? fun key => sel.attributes.lookup key := by
    unfold SelectorHints.testId
    rw [h.attributes]
  unfold isStable Brittle
  rw [hid, htest, h.attributes]
  cases sel.elementId.isSome with
  | true => simp
  | false =>
    simp only [Bool.false_eq_true, if_false, false_or]
    cases htruthy : truthy (testIdKeys.findSome? fun key => sel.attributes.lookup key) with
    | true => simp
    | false =>
      by_cases hnil : sel.classes = []
      · simp [hclasses.mpr hnil, hnil]
      · have hsome : (parseSelector s).classes.isEmpty = false := by
          rw [← Bool.not_eq_true]
          exact fun hempty => hnil (hclasses.mp hempty)
        simp [hsome, hnil]

/-- A step that touches an element drifts exactly if its selector is unstable. -/
theorem drifts_iff {step : StepSpec} {s : String} (hselector : step.selector = some s)
    (hnavigate : step.action ≠ .navigate) (hwait : step.action ≠ .wait) (index : ℕ) :
    (runStep step index).drifted = true ↔ isStable (parseSelector s) = false := by
  have htargeted : untargeted step = false := by
    unfold untargeted
    simp [hselector, hnavigate, hwait]
  rw [runStep_drifted, htargeted, hselector, Option.getD_some]
  exact and_iff_right rfl

/-- A compound selector is read as its parts, and a step with it drifts exactly if it is brittle,
if and only if no value is mistaken for another part. -/
theorem compound_read_iff [LawfulUnicode] (sel : CompoundSelector) :
    (Reads sel.print sel.tag sel.elementId sel.classes sel.attributes ∧
      ∀ (step : StepSpec) (index : ℕ), step.selector = some sel.print →
        step.action ≠ .navigate → step.action ≠ .wait →
          ((runStep step index).drifted = true ↔ Brittle sel)) ↔ sel.Unmistakable := by
  rw [← sel.reads_iff]
  constructor
  · exact fun h => h.1
  · intro h
    refine ⟨h, fun step index hselector hnavigate hwait => ?_⟩
    rw [drifts_iff hselector hnavigate hwait, ← Bool.not_eq_true, isStable_reads h, not_not]

end

/-- `button.primary[name="go"]` -/
def goSelector : @CompoundSelector asciiUnicode :=
  let _ : Unicode := asciiUnicode
  { tag := some "button"
    classes := ["primary"]
    attributes := [("name", "go")]
    tag_ok := by
      intro t ht
      obtain rfl := Option.some.inj ht
      exact ⟨⟨'b', "utton".toList, rfl, by decide, List.all_eq_true.mp (by decide)⟩, by decide,
        by decide, by decide⟩
    elementId_ok := fun _ h => by cases h
    classes_ok := by decide
    keys_ok := by decide
    keys_nodup := by decide
    values_ok := by decide }

theorem goSelector_unmistakable : @CompoundSelector.Unmistakable asciiUnicode goSelector := by
  let _ : Unicode := asciiUnicode
  exact
    { tag := by decide
      elementId := fun _ => by decide
      classes := by decide
      text := by
        intro kv hkv
        obtain rfl := List.mem_singleton.mp hkv
        exact textFree_short (by decide) }

theorem goSelector_read :
    let _ : Unicode := asciiUnicode
    Reads goSelector.print (some "button") none ["primary"] [("name", "go")] ∧
      ¬ Brittle goSelector := by
  intro _
  have h := (@compound_read_iff asciiUnicode asciiUnicode_lawful goSelector).mpr
    goSelector_unmistakable
  refine ⟨h.1, ?_⟩
  rintro (hid | ⟨hnil, -⟩)
  · cases hid
  · cases hnil

/-- `[data-testid="row#3"]` -/
def rowSelector : @CompoundSelector asciiUnicode :=
  let _ : Unicode := asciiUnicode
  { attributes := [("data-testid", "row#3")]
    tag_ok := fun _ h => by cases h
    elementId_ok := fun _ h => by cases h
    classes_ok := fun _ h => by cases h
    keys_ok := by decide
    keys_nodup := by decide
    values_ok := by decide }

/-- A click on that row. -/
def rowStep : StepSpec :=
  { action := .click, selector := some "[data-testid=\"row#3\"]" }

/-- The value is mistaken for an id, and a step with a stable test-id drifts. -/
theorem row_counterexample :
    let _ : Unicode := asciiUnicode
    ¬ Brittle rowSelector ∧ (parseSelector rowSelector.print).elementId = some "3" ∧
      ¬ Reads rowSelector.print none none [] [("data-testid", "row#3")] ∧
      rowStep.selector = some rowSelector.print ∧ (runStep rowStep 0).drifted = true := by
  intro _
  have hid : (parseSelector rowSelector.print).elementId = some "3" := by decide +kernel
  refine ⟨?_, hid, ?_, by decide +kernel, by decide +kernel⟩
  · rintro (hsome | ⟨-, htest, -⟩)
    · cases hsome
    · exact absurd htest (by decide)
  · intro h
    have hnone := h.elementId
    rw [hid] at hnone
    cases hnone

/-! ## Text locators -/

section
variable [Unicode]

/-- The locator is read as its text and nothing else, and every step with it drifts. -/
def ReadAsText (s t : String) : Prop :=
  OnlyText (parseSelector s) t ∧ ∀ (step : StepSpec) (index : ℕ), step.selector = some s →
    step.action ≠ .navigate → step.action ≠ .wait → (runStep step index).drifted = true

/-- A step with nothing but a text to go by drifts. -/
theorem drifts_of_onlyText {s t : String} (h : OnlyText (parseSelector s) t) (step : StepSpec)
    (index : ℕ) (hselector : step.selector = some s) (hnavigate : step.action ≠ .navigate)
    (hwait : step.action ≠ .wait) : (runStep step index).drifted = true := by
  rw [drifts_iff hselector hnavigate hwait]
  unfold isStable SelectorHints.testId
  rw [h.elementId, h.classes, h.attributes]
  rfl

theorem readAsText_iff {s t : String} : ReadAsText s t ↔ OnlyText (parseSelector s) t :=
  ⟨fun h => h.1, fun h => ⟨h, drifts_of_onlyText h⟩⟩

/-- For every text that is not blank, `text=` and `:has-text("")` locators are read as that text,
and drift, exactly if the text is plain. -/
theorem text_locators_iff [LawfulUnicode] (t : String) (hblank : strip t.toList ≠ []) :
    (ReadAsText ("text=" ++ t) t ↔ PlainText t) ∧
      ('"' ∉ t.toList → (ReadAsText (":has-text(\"" ++ t ++ "\")") t ↔ PlainText t)) := by
  have hne : t.toList ≠ [] := by
    intro hnil
    rw [hnil] at hblank
    exact hblank rfl
  exact ⟨readAsText_iff.trans (onlyText_equals_iff hne),
    fun _ => readAsText_iff.trans (onlyText_hasText_iff hne)⟩

end

theorem add_to_cart_plain : @PlainText asciiUnicode "Add to cart" := by
  let _ : Unicode := asciiUnicode
  refine ⟨List.all_eq_true.mp (by decide), by decide, by decide, ?_, by decide⟩
  intro u hu hopens
  have hbracket := List.mem_of_head? hopens.head
  exact absurd (hu.mem hbracket) (by decide)

theorem add_to_cart_read :
    let _ : Unicode := asciiUnicode
    ReadAsText "text=Add to cart" "Add to cart" ∧
      ReadAsText ":has-text(\"Add to cart\")" "Add to cart" := by
  intro _
  have h := @text_locators_iff asciiUnicode asciiUnicode_lawful "Add to cart" (by decide)
  exact ⟨h.1.mpr add_to_cart_plain, (h.2 (by decide)).mpr add_to_cart_plain⟩

/-- A text with an apostrophe is cut, and a text with a version number counts as a class, so that
its step passes. -/
theorem text_counterexample :
    let _ : Unicode := asciiUnicode
    (parseSelector "text=Don't save").text = some "Don" ∧
      (parseSelector "text=Update to v2.1").classes = ["1"] ∧
      (runStep { action := .click, selector := some "text=Update to v2.1" } 0).drifted = false ∧
      ¬ ReadAsText "text=Don't save" "Don't save" ∧
      ¬ ReadAsText ":has-text(\"Update to v2.1\")" "Update to v2.1" := by
  intro _
  have htext : (parseSelector "text=Don't save").text = some "Don" := by decide +kernel
  have hclasses : (parseSelector ":has-text(\"Update to v2.1\")").classes = ["1"] := by
    decide +kernel
  refine ⟨htext, by decide +kernel, by decide +kernel, fun h => ?_, fun h => ?_⟩
  · have hall := h.1.text
    rw [htext] at hall
    exact absurd hall (by decide)
  · have hnone := h.1.classes
    rw [hclasses] at hnone
    cases hnone

end AegisPlatform.Workers
