import AegisPlatform.Healing.Strategies
import AegisPlatform.Workers.Browser

/-! # The page a case is run against

`build_page` seen as data: one node for each step that touches an element, in the order of the
steps. A page is clean if no rendered test-id and no rendered text holds a character HTML gives a
meaning to; `RecoversPage` states what the HTML parser makes of a clean page.
-/

namespace AegisPlatform.Workers
open Foundations Domain Healing
set_option autoImplicit false
set_option maxHeartbeats 250000

structure Node where
  tag : String
  testId : String
  classes : List String
  text : String
deriving DecidableEq

namespace Node

def html (n : Node) : String :=
  let classes := " ".intercalate n.classes
  let classAttr := if classes = "" then "" else " class=\"" ++ classes ++ "\""
  "<" ++ n.tag ++ " data-testid=\"" ++ n.testId ++ "\"" ++ classAttr ++ ">" ++ n.text ++ "</" ++
    n.tag ++ ">"

/-- The node as the parser finds it again; a void element holds no text. -/
def parsed (n : Node) : Tag :=
  { name := n.tag
    attrs := ("data-testid", .single n.testId) ::
      (if n.classes = [] then [] else [("class", .multi n.classes)])
    text := if n.tag = "input" then "" else String.ofList (strip n.text.toList) }

def element (n : Node) : DomElement :=
  { tag := n.tag
    elementId := none
    classes := n.classes
    attributes := ("data-testid", n.testId) ::
      (if n.classes = [] then [] else [("class", " ".intercalate n.classes)])
    text := String.ofList (n.parsed.text.toList.take 160) }

end Node

def CleanText (s : String) : Prop := ∀ c ∈ s.toList, c ∉ ['<', '>', '&', '"', '\'']

instance (s : String) : Decidable (CleanText s) :=
  decidable_of_iff ((s.toList.all fun c => decide (c ∉ ['<', '>', '&', '"', '\''])) = true)
    (by simp [CleanText])

section
variable [Unicode]

def nodeOf (index : ℕ) (step : StepSpec) : Option Node :=
  if untargeted step then none
  else
    let hints := parseSelector (step.selector.getD "")
    some
      { tag := tagForAction step.action
        testId := (pyOr hints.testId (some ("tid-" ++ toString index))).getD ""
        classes := sortedStrings hints.classes
        text := (pyOr (pyOr step.expected step.value) (some "")).getD "" }

def nodes (steps : List StepSpec) : List Node :=
  steps.zipIdx.filterMap fun (step, index) => nodeOf index step

def CleanCase (steps : List StepSpec) : Prop :=
  ∀ n ∈ nodes steps, CleanText n.testId ∧ CleanText n.text

omit [Unicode] in
/-- The containers `build_page` puts around the nodes. -/
def IsFrame (tag : Tag) : Prop := tag.name ∈ ["html", "body", "main"] ∧ tag.attrs = []

/-- Behind the containers, the parser finds the rendered nodes in their order. -/
def RecoversPage (findAll : HtmlParser) (steps : List StepSpec) : Prop :=
  ∃ frame, (∀ tag ∈ frame, IsFrame tag) ∧
    findAll (buildPage steps) = .ok (frame ++ (nodes steps).map Node.parsed)

/-! ## The nodes are what the source renders -/

theorem renderNode_eq (index : ℕ) (step : StepSpec) :
    renderNode index step = (nodeOf index step).map Node.html := by
  unfold renderNode nodeOf
  split
  · rfl
  · rfl

theorem buildPage_eq (steps : List StepSpec) :
    buildPage steps =
      "<html><body><main>" ++ String.join ((nodes steps).map Node.html) ++
        "</main></body></html>" := by
  have hnodes : (steps.zipIdx.filterMap fun (step, index) => renderNode index step) =
      (nodes steps).map Node.html := by
    unfold nodes
    rw [List.map_filterMap]
    apply List.filterMap_congr
    rintro ⟨step, index⟩ -
    exact renderNode_eq index step
  unfold buildPage
  rw [hnodes]

/-- A step that touches an element is rendered in its place. -/
theorem mem_nodes {steps : List StepSpec} {n : Node} :
    n ∈ nodes steps ↔ ∃ index step, steps[index]? = some step ∧ nodeOf index step = some n := by
  unfold nodes
  rw [List.mem_filterMap]
  constructor
  · rintro ⟨⟨step, index⟩, hmem, hnode⟩
    exact ⟨index, step, List.mem_zipIdx_iff_getElem?.mp hmem, hnode⟩
  · rintro ⟨index, step, hget, hnode⟩
    exact ⟨(step, index), List.mem_zipIdx_iff_getElem?.mpr hget, hnode⟩

/-! ## The elements of the page -/

theorem lower_tagForAction (action : StepAction) :
    lower (tagForAction action) = tagForAction action := by
  cases action with
  | click => exact lower_ascii_eq (s := "button") (by decide) (by decide)
  | fill => exact lower_ascii_eq (s := "input") (by decide) (by decide)
  | assertText => exact lower_ascii_eq (s := "span") (by decide) (by decide)
  | navigate | assertVisible | wait => exact lower_ascii_eq (s := "div") (by decide) (by decide)

theorem nodeOf_some {index : ℕ} {step : StepSpec} {n : Node} (h : nodeOf index step = some n) :
    untargeted step = false ∧ n.tag = tagForAction step.action ∧
      n.testId = (pyOr (parseSelector (step.selector.getD "")).testId
        (some ("tid-" ++ toString index))).getD "" ∧
      n.classes = sortedStrings (parseSelector (step.selector.getD "")).classes ∧
      n.text = (pyOr (pyOr step.expected step.value) (some "")).getD "" := by
  unfold nodeOf at h
  split at h
  · cases h
  · next htouches =>
    obtain rfl := Option.some.inj h
    exact ⟨Bool.eq_false_iff.mpr htouches, rfl, rfl, rfl, rfl⟩

theorem candidate_frame {tag : Tag} (h : IsFrame tag) : candidate tag = none := by
  obtain ⟨hname, hattrs⟩ := h
  have hlower : lower tag.name = tag.name := by
    simp only [List.mem_cons, List.not_mem_nil, or_false] at hname
    rcases hname with hname | hname | hname
    · rw [hname]
      exact lower_ascii_eq (s := "html") (by decide) (by decide)
    · rw [hname]
      exact lower_ascii_eq (s := "body") (by decide) (by decide)
    · rw [hname]
      exact lower_ascii_eq (s := "main") (by decide) (by decide)
  have hlayout : tag.name ∉ interactable := by
    simp only [List.mem_cons, List.not_mem_nil, or_false] at hname
    rcases hname with hname | hname | hname
    · rw [hname]
      decide
    · rw [hname]
      decide
    · rw [hname]
      decide
  have hnone : tag.joinedAttrs = [] := by
    unfold Tag.joinedAttrs
    rw [hattrs, List.map_nil]
  unfold candidate
  simp [hlower, hlayout, hnone]

theorem candidate_parsed {n : Node} (h : lower n.tag = n.tag) :
    candidate n.parsed = some n.element := by
  have hattrs : n.parsed.joinedAttrs = n.element.attributes := by
    unfold Node.parsed Node.element Tag.joinedAttrs
    by_cases hclasses : n.classes = []
    · simp [hclasses, AttrValue.joined]
    · simp [hclasses, AttrValue.joined]
  have hkept : ¬ ∀ key ∈ identifyingAttrs, n.element.attributes.lookup key = none := by
    intro hnone
    have htestId := hnone "data-testid" (by decide)
    simp [Node.element] at htestId
  have hid : n.parsed.attrs.lookup "id" = none := by
    unfold Node.parsed
    by_cases hclasses : n.classes = []
    · simp [hclasses, List.lookup_cons]
    · simp [hclasses, List.lookup_cons]
  have hclass : listOnly (n.parsed.attrs.lookup "class") = n.classes := by
    unfold Node.parsed
    by_cases hclasses : n.classes = []
    · simp [hclasses, List.lookup_cons, listOnly]
    · simp [hclasses, List.lookup_cons, listOnly]
  unfold candidate
  dsimp only
  have hname : lower n.parsed.name = n.tag := h
  rw [hattrs, if_neg fun hboth => hkept hboth.2, hid, hclass, hname]
  rfl

theorem lower_node {steps : List StepSpec} {n : Node} (h : n ∈ nodes steps) :
    lower n.tag = n.tag := by
  obtain ⟨index, step, -, hnode⟩ := mem_nodes.mp h
  rw [(nodeOf_some hnode).2.1]
  exact lower_tagForAction step.action

/-- Behind the containers, the candidates are the nodes. -/
theorem parseDom_nodes {findAll : HtmlParser} {html : String} {frame : List Tag} {ns : List Node}
    (hframe : ∀ tag ∈ frame, IsFrame tag) (hlower : ∀ n ∈ ns, lower n.tag = n.tag)
    (hparse : findAll html = .ok (frame ++ ns.map Node.parsed)) :
    parseDom findAll html = .ok (ns.map Node.element) := by
  have hskipped : frame.filterMap candidate = [] :=
    List.filterMap_eq_nil_iff.mpr fun tag htag => candidate_frame (hframe tag htag)
  have hkept : (ns.map Node.parsed).filterMap candidate = ns.map Node.element := by
    rw [List.filterMap_map, ← List.filterMap_eq_map]
    apply List.filterMap_congr
    intro n hn
    exact candidate_parsed (hlower n hn)
  unfold parseDom
  rw [hparse]
  show Except.ok ((frame ++ ns.map Node.parsed).filterMap candidate) = _
  rw [List.filterMap_append, hskipped, hkept, List.nil_append]

/-- The candidates of a recovered page are its nodes. -/
theorem parseDom_page {findAll : HtmlParser} {steps : List StepSpec}
    (h : RecoversPage findAll steps) :
    parseDom findAll (buildPage steps) = .ok ((nodes steps).map Node.element) := by
  obtain ⟨frame, hframe, hparse⟩ := h
  exact parseDom_nodes hframe (fun n hn => lower_node hn) hparse

omit [Unicode] in
theorem plain_element (n : Node) : Plain n.element where
  id := rfl
  attrs := by
    intro attr hattr
    unfold Node.element
    simp only [otherAttrs, List.mem_cons, List.not_mem_nil, or_false] at hattr
    by_cases hclasses : n.classes = []
    · rcases hattr with rfl | rfl | rfl | rfl | rfl <;> simp [hclasses, List.lookup_cons]
    · rcases hattr with rfl | rfl | rfl | rfl | rfl <;> simp [hclasses, List.lookup_cons]

omit [Unicode] in
theorem testId_element (n : Node) : n.element.testId = some n.testId := by
  simp [DomElement.testId, testIdKeys, Node.element]

omit [Unicode] in
theorem toSelector_element (n : Node) :
    n.element.toSelector = attrSelector "data-testid" n.testId := by
  simp [DomElement.toSelector, firstPresent, testIdKeys, Node.element]

end

end AegisPlatform.Workers
