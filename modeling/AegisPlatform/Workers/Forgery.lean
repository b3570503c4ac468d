import AegisPlatform.Healing.Printer
import AegisPlatform.Workers.Rendering
import Mathlib.Data.Finset.Defs

/-! # Pages that read as others

`build_page` writes the texts of the steps into the page as they are, so that a text can bring its
own markup. Two cases have the same page and different elements exactly if one of them forges the
other.
-/

namespace AegisPlatform.Workers
open Foundations Foundations.Regex Domain Healing
set_option autoImplicit false
set_option maxHeartbeats 250000

namespace Node

/-- What an element is told by: its tag, test-id, set of classes and text. -/
def view (n : Node) : String × String × Finset String × String :=
  (n.tag, n.testId, n.classes.toFinset, n.text)

def opening (n : Node) : String :=
  let classes := " ".intercalate n.classes
  let classAttr := if classes = "" then "" else " class=\"" ++ classes ++ "\""
  "<" ++ n.tag ++ " data-testid=\"" ++ n.testId ++ "\"" ++ classAttr ++ ">"

def closing (n : Node) : String := "</" ++ n.tag ++ ">"

end Node

def markup (ns : List Node) : String := String.join (ns.map Node.html)

/-- Up to some place the nodes are the same, and the next one differs in its text alone: there `ms`
has the text of `ns`, the end of its element, and then what stands in the page of `ns`. -/
inductive Forges : List Node → List Node → Prop
  | here (n : Node) (u : String) (ns ms : List Node)
      (h : markup ns = u ++ n.closing ++ markup ms) :
      Forges (n :: ns) ({ n with text := n.text ++ n.closing ++ u } :: ms)
  | there (n : Node) {ns ms : List Node} (h : Forges ns ms) : Forges (n :: ns) (n :: ms)

/-- The text does not hold the end of its own element. -/
def Node.Closed (n : Node) : Prop := ¬ n.closing.toList <:+: n.text.toList

section
variable [Unicode]

/-- What `build_page` guarantees of a node. -/
structure Node.Rendered (n : Node) : Prop where
  tag : ∃ action, n.tag = tagForAction action
  testId : '"' ∉ n.testId.toList
  classes : ∀ c ∈ n.classes, IsName isClassChar c

/-! ## Rendered nodes -/

omit [Unicode] in
theorem quote_not_mem_tid (index : ℕ) : '"' ∉ ("tid-" ++ toString index).toList := by
  have hlist : ("tid-" ++ toString index).toList = "tid-".toList ++ Nat.toDigits 10 index := by simp
  rw [hlist, List.mem_append]
  rintro (hmem | hmem)
  · exact absurd hmem (by decide)
  · exact absurd (Nat.isDigit_of_mem_toDigits (by decide) (by decide) hmem) (by decide)

theorem clean_testId {selector testId : String} (h : (parseSelector selector).testId = some testId) :
    CleanValue testId := by
  unfold SelectorHints.testId at h
  obtain ⟨key, -, hlookup⟩ := List.exists_of_findSome?_eq_some h
  obtain ⟨a, b, hlist, -⟩ := List.lookup_eq_some_iff.mp hlookup
  rw [attributes_parseSelector] at hlist
  exact clean_parseAttributes selector.toList (key, testId) (by simp [hlist])

theorem nodeOf_rendered {index : ℕ} {step : StepSpec} {n : Node} (h : nodeOf index step = some n) :
    n.Rendered := by
  obtain ⟨-, htag, htestId, hclasses, -⟩ := nodeOf_some h
  refine ⟨⟨step.action, htag⟩, ?_, fun c hc => ?_⟩
  · rw [htestId]
    cases hfound : (parseSelector (step.selector.getD "")).testId with
    | none => exact quote_not_mem_tid index
    | some testId =>
      have hor : pyOr (some testId) (some ("tid-" ++ toString index)) =
        if testId = "" then some ("tid-" ++ toString index) else some testId := rfl
      rw [hor]
      by_cases hempty : testId = ""
      · rw [if_pos hempty]
        exact quote_not_mem_tid index
      · rw [if_neg hempty]
        exact fun hmem => absurd (clean_testId hfound '"' hmem) (by decide)
  · rw [hclasses, mem_sortedStrings] at hc
    exact isName_of_class hc

theorem nodes_rendered {steps : List StepSpec} : ∀ n ∈ nodes steps, n.Rendered := by
  intro n hn
  obtain ⟨index, step, -, hnode⟩ := mem_nodes.mp hn
  exact nodeOf_rendered hnode

/-! ## Cutting the page -/

omit [Unicode] in
theorem html_eq (n : Node) : n.html = n.opening ++ n.text ++ n.closing := by
  unfold Node.html Node.opening Node.closing
  simp only [String.append_assoc]

omit [Unicode] in
theorem tag_plain (action : StepAction) :
    ' ' ∉ (tagForAction action).toList ∧ '<' ∉ (tagForAction action).toList := by
  cases action with
  | click => decide
  | fill => decide
  | assertText => decide
  | navigate | assertVisible | wait => decide

omit [Unicode] in
theorem toList_closing (n : Node) : n.closing.toList = '<' :: ('/' :: (n.tag.toList ++ ['>'])) := by
  simp [Node.closing]

/-- The classes as they stand in the page, up to the end of the opening tag. -/
def classChars (classes : List String) : List Char :=
  if " ".intercalate classes = "" then []
  else " class=\"".toList ++ ([' '].intercalate (classes.map String.toList) ++ ['"'])

omit [Unicode] in
theorem toList_opening (n : Node) : n.opening.toList =
    '<' :: (n.tag.toList ++ ' ' :: ("data-testid=\"".toList ++ (n.testId.toList ++
      '"' :: (classChars n.classes ++ ['>'])))) := by
  unfold Node.opening classChars
  dsimp only
  split
  · simp
  · simp

theorem isName_plain {c : String} (h : IsName isClassChar c) :
    c.toList ≠ [] ∧ ' ' ∉ c.toList ∧ '"' ∉ c.toList := by
  refine ⟨h.1, fun hmem => ?_, fun hmem => isClassChar_bare (h.2 _ hmem) (by decide)⟩
  have hspace := h.2 ' ' hmem
  rw [isClassChar_ascii (by decide)] at hspace
  exact absurd hspace (by decide)

/-- The classes can be told from what stands in the page. -/
theorem classes_cut {cs ds : List String} (hcs : ∀ c ∈ cs, IsName isClassChar c)
    (hds : ∀ c ∈ ds, IsName isClassChar c) {s t : List Char}
    (h : classChars cs ++ '>' :: s = classChars ds ++ '>' :: t) : cs = ds ∧ s = t := by
  have hnames : ∀ {es : List String}, (∀ c ∈ es, IsName isClassChar c) →
      ∀ x ∈ es.map String.toList, x ≠ [] ∧ ' ' ∉ x ∧ '"' ∉ x := by
    intro es hes x hx
    obtain ⟨c, hc, rfl⟩ := List.mem_map.mp hx
    exact isName_plain (hes c hc)
  have hquote : ∀ {es : List String}, (∀ c ∈ es, IsName isClassChar c) →
      '"' ∉ [' '].intercalate (es.map String.toList) := by
    intro es hes hmem
    rcases mem_intercalate hmem with heq | ⟨x, hx, hmem⟩
    · exact absurd heq (by decide)
    · exact (hnames hes x hx).2.2 hmem
  have hinj : [' '].intercalate (cs.map String.toList) = [' '].intercalate (ds.map String.toList) →
      cs = ds := by
    intro hjoin
    have hmap := intercalate_inj (fun x hx => ⟨(hnames hcs x hx).1, (hnames hcs x hx).2.1⟩)
      (fun x hx => ⟨(hnames hds x hx).1, (hnames hds x hx).2.1⟩) hjoin
    exact List.map_injective_iff.mpr (fun a b => String.toList_inj.mp) hmap
  have hempty : ∀ {es : List String}, " ".intercalate es = "" →
      [' '].intercalate (es.map String.toList) = [] := by
    intro es hes
    have hlist := congrArg String.toList hes
    rwa [String.toList_intercalate] at hlist
  have hchars : " class=\"".toList = ' ' :: "class=\"".toList := rfl
  unfold classChars at h
  rw [hchars] at h
  by_cases hc : " ".intercalate cs = ""
  · rw [if_pos hc] at h
    by_cases hd : " ".intercalate ds = ""
    · rw [if_pos hd] at h
      exact ⟨hinj ((hempty hc).trans (hempty hd).symm), (List.cons.inj h).2⟩
    · rw [if_neg hd] at h
      exact absurd (List.cons.inj h).1 (by decide)
  · rw [if_neg hc] at h
    by_cases hd : " ".intercalate ds = ""
    · rw [if_pos hd] at h
      exact absurd (List.cons.inj h).1 (by decide)
    · rw [if_neg hd, List.append_assoc, List.append_assoc, List.append_assoc, List.append_assoc] at h
      obtain ⟨hjoin, hrest⟩ := cut_first (hquote hcs) (hquote hds) (List.append_cancel_left h)
      exact ⟨hinj hjoin, (List.cons.inj hrest).2⟩

/-- Two pages that begin with a node begin with the same one, up to its text. -/
theorem opening_cut {n m : Node} (hn : n.Rendered) (hm : m.Rendered) {s t : List Char}
    (h : n.opening.toList ++ s = m.opening.toList ++ t) :
    n.tag = m.tag ∧ n.testId = m.testId ∧ n.classes = m.classes ∧ s = t := by
  obtain ⟨a, ha⟩ := hn.tag
  obtain ⟨b, hb⟩ := hm.tag
  rw [toList_opening, toList_opening, ha, hb] at h
  simp only [List.cons_append, List.append_assoc] at h
  obtain ⟨htag, h⟩ := cut_first (tag_plain a).1 (tag_plain b).1 (List.cons.inj h).2
  obtain ⟨htestId, h⟩ := cut_first hn.testId hm.testId (List.append_cancel_left h)
  obtain ⟨hclasses, h⟩ := classes_cut hn.classes hm.classes h
  refine ⟨?_, String.toList_inj.mp htestId, hclasses, h⟩
  rw [ha, hb, String.toList_inj.mp htag]

omit [Unicode] in
@[simp]
theorem markup_cons (n : Node) (ns : List Node) : markup (n :: ns) = n.html ++ markup ns := by
  unfold markup
  rw [List.map_cons, String.join_cons]

omit [Unicode] in
theorem markup_cons_ne (n : Node) (ns : List Node) : markup (n :: ns) ≠ "" := by
  intro h
  have hlist := congrArg String.toList h
  rw [markup_cons, html_eq, String.toList_append, String.toList_append, String.toList_append,
    toList_opening] at hlist
  cases hlist

/-- Pages with the same markup begin with the same node, or one text goes on beyond the other with
the end of the element and what follows it in the other page. -/
theorem markup_cut {n m : Node} (hn : n.Rendered) (hm : m.Rendered) {ns ms : List Node}
    (h : markup (n :: ns) = markup (m :: ms)) :
    (n = m ∧ markup ns = markup ms) ∨
      (∃ u, m = { n with text := n.text ++ n.closing ++ u } ∧
        markup ns = u ++ n.closing ++ markup ms) ∨
      ∃ u, n = { m with text := m.text ++ m.closing ++ u } ∧
        markup ms = u ++ m.closing ++ markup ns := by
  have hplain : ∀ {k : Node}, k.Rendered → '<' ∉ '/' :: (k.tag.toList ++ ['>']) := by
    intro k hk
    obtain ⟨action, hact⟩ := hk.tag
    simp [hact, (tag_plain action).2]
  have hchars : ∀ (k : Node) (ks : List Node), (markup (k :: ks)).toList = k.opening.toList ++
      (k.text.toList ++ '<' :: ('/' :: (k.tag.toList ++ ['>']) ++ (markup ks).toList)) := by
    intro k ks
    rw [markup_cons, html_eq]
    simp only [String.toList_append, toList_closing, List.append_assoc, List.cons_append]
  have hlist := congrArg String.toList h
  rw [hchars, hchars] at hlist
  obtain ⟨htag, htestId, hclasses, hrest⟩ := opening_cut hn hm hlist
  obtain ⟨tag, testId, classes, text⟩ := n
  obtain ⟨tag', testId', classes', text'⟩ := m
  obtain rfl : tag = tag' := htag
  obtain rfl : testId = testId' := htestId
  obtain rfl : classes = classes' := hclasses
  rcases cut_delimiter (hplain hn) hrest with ⟨htext, hs⟩ | ⟨u, htext, hs⟩ | ⟨u, htext, hs⟩
  · obtain rfl : text = text' := String.toList_inj.mp htext
    exact Or.inl ⟨rfl, String.toList_inj.mp hs⟩
  · refine Or.inr (Or.inl ⟨String.ofList u, ?_, String.toList_inj.mp ?_⟩)
    · rw [Node.mk.injEq]
      refine ⟨rfl, rfl, rfl, String.toList_inj.mp ?_⟩
      simp [toList_closing, htext]
    · simp [toList_closing, hs]
  · refine Or.inr (Or.inr ⟨String.ofList u, ?_, String.toList_inj.mp ?_⟩)
    · rw [Node.mk.injEq]
      refine ⟨rfl, rfl, rfl, String.toList_inj.mp ?_⟩
      simp [toList_closing, htext]
    · simp [toList_closing, hs]

/-! ## Forged pages -/

omit [Unicode] in
theorem Forges.markup_eq {ns ms : List Node} (h : Forges ns ms) : markup ns = markup ms := by
  induction h with
  | here n u ns ms h =>
    rw [markup_cons, markup_cons, html_eq, html_eq, h]
    simp only [Node.opening, Node.closing, String.append_assoc]
  | there n h ih => rw [markup_cons, markup_cons, ih]

omit [Unicode] in
/-- A forged page differs in the text of one of its elements. -/
theorem Forges.texts_ne {ns ms : List Node} (h : Forges ns ms) :
    ns.map Node.text ≠ ms.map Node.text := by
  induction h with
  | here n u ns ms h =>
    intro heq
    have htext : n.text = n.text ++ n.closing ++ u := (List.cons.inj heq).1
    have hlength := congrArg String.length htext
    simp only [String.length_append, Node.closing] at hlength
    have hslash : "</".length = 2 := rfl
    omega
  | there n h ih => exact fun heq => ih (List.cons.inj heq).2

omit [Unicode] in
theorem Forges.not_closed {ns ms : List Node} (h : Forges ns ms) : ∃ m ∈ ms, ¬ m.Closed := by
  induction h with
  | here n u ns ms h =>
    refine ⟨_, List.mem_cons_self, fun hclosed => hclosed ⟨n.text.toList, u.toList, ?_⟩⟩
    show n.text.toList ++ n.closing.toList ++ u.toList = (n.text ++ n.closing ++ u).toList
    rw [String.toList_append, String.toList_append]
  | there n h ih =>
    obtain ⟨m, hm, hclosed⟩ := ih
    exact ⟨m, List.mem_cons_of_mem n hm, hclosed⟩

omit [Unicode] in
/-- Of two neighbours with the same tag the first can bring the second along. -/
theorem forges_neighbours {n k : Node} (h : n.tag = k.tag) (ns : List Node) :
    Forges (n :: k :: ns)
      ({ n with text := n.text ++ n.closing ++ (k.opening ++ k.text) } :: ns) := by
  refine .here n (k.opening ++ k.text) (k :: ns) ns ?_
  have hclosing : n.closing = k.closing := by
    unfold Node.closing
    rw [h]
  rw [markup_cons, html_eq, hclosing]

/-- Nodes with the same markup are the same, or forge each other. -/
theorem eq_or_forges {ns ms : List Node} (hns : ∀ n ∈ ns, n.Rendered) (hms : ∀ m ∈ ms, m.Rendered)
    (h : markup ns = markup ms) : ns = ms ∨ Forges ns ms ∨ Forges ms ns := by
  induction ns generalizing ms with
  | nil =>
    cases ms with
    | nil => exact Or.inl rfl
    | cons m ms => exact absurd h.symm (markup_cons_ne m ms)
  | cons n ns ih =>
    cases ms with
    | nil => exact absurd h (markup_cons_ne n ns)
    | cons m ms =>
      rcases markup_cut (hns n List.mem_cons_self) (hms m List.mem_cons_self) h with
        ⟨rfl, hrest⟩ | ⟨u, rfl, hrest⟩ | ⟨u, rfl, hrest⟩
      · rcases ih (fun k hk => hns k (List.mem_cons_of_mem n hk))
          (fun k hk => hms k (List.mem_cons_of_mem n hk)) hrest with rfl | hforges | hforges
        · exact Or.inl rfl
        · exact Or.inr (Or.inl (hforges.there n))
        · exact Or.inr (Or.inr (hforges.there n))
      · exact Or.inr (Or.inl (.here n u ns ms hrest))
      · exact Or.inr (Or.inr (.here m u ms ns hrest))

theorem buildPage_eq_iff (s t : List StepSpec) :
    buildPage s = buildPage t ↔ markup (nodes s) = markup (nodes t) := by
  rw [buildPage_eq, buildPage_eq]
  unfold markup
  constructor
  · intro h
    have hlist := congrArg String.toList h
    simp only [String.toList_append] at hlist
    exact String.toList_inj.mp (List.append_cancel_left (List.append_cancel_right hlist))
  · intro h
    rw [h]

/-- While no text closes its own element, the page determines the nodes. -/
theorem nodes_eq_of_closed {s t : List StepSpec} (hs : ∀ n ∈ nodes s, n.Closed)
    (ht : ∀ n ∈ nodes t, n.Closed) (h : buildPage s = buildPage t) : nodes s = nodes t := by
  rcases eq_or_forges nodes_rendered nodes_rendered ((buildPage_eq_iff s t).mp h) with
    heq | hforges | hforges
  · exact heq
  · obtain ⟨n, hn, hnot⟩ := hforges.not_closed
    exact absurd (ht n hn) hnot
  · obtain ⟨n, hn, hnot⟩ := hforges.not_closed
    exact absurd (hs n hn) hnot

/-- The page of a case tells its elements exactly if no case forges the other. -/
theorem page_tells_elements_iff (s t : List StepSpec) :
    (buildPage s = buildPage t → (nodes s).map Node.view = (nodes t).map Node.view) ↔
      ¬ Forges (nodes s) (nodes t) ∧ ¬ Forges (nodes t) (nodes s) := by
  have htexts : ∀ {ns ms : List Node}, ns.map Node.view = ms.map Node.view →
      ns.map Node.text = ms.map Node.text := by
    intro ns ms heq
    have hmap := congrArg (List.map fun v => v.2.2.2) heq
    rwa [List.map_map, List.map_map] at hmap
  rw [buildPage_eq_iff]
  constructor
  · intro h
    refine ⟨fun hforges => ?_, fun hforges => ?_⟩
    · exact hforges.texts_ne (htexts (h hforges.markup_eq))
    · exact hforges.texts_ne (htexts (h hforges.markup_eq.symm)).symm
  · rintro ⟨hst, hts⟩ h
    rcases eq_or_forges nodes_rendered nodes_rendered h with heq | hforges | hforges
    · rw [heq]
    · exact absurd hforges hst
    · exact absurd hforges hts

end

def twoButtons : List StepSpec :=
  [{ action := .click, selector := some "[data-testid=a]" },
    { action := .click, selector := some "[data-testid=b]" }]

def forgedButton : List StepSpec :=
  [{ action := .click, selector := some "[data-testid=a]"
     value := some "</button><button data-testid=\"b\">" }]

/-- The value of one click brings the second button along. -/
theorem forged_counterexample :
    let _ : Unicode := asciiUnicode
    buildPage twoButtons = buildPage forgedButton ∧
      (nodes twoButtons).map Node.view ≠ (nodes forgedButton).map Node.view := by
  intro _
  refine ⟨by decide +kernel, fun h => ?_⟩
  have hlength := congrArg List.length h
  rw [List.length_map, List.length_map] at hlength
  exact absurd hlength (by decide +kernel)

end AegisPlatform.Workers
