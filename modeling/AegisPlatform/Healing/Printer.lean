import AegisPlatform.Healing.Compound

/-! # Reading printed selectors back

`to_selector` prints the strings of a page as they are, and `parse_selector` reads them with its own
character classes. `Printable` says of which elements the chosen signal comes back, and nothing
else with it.
-/

namespace AegisPlatform.Healing
open Foundations Foundations.Regex
set_option autoImplicit false
set_option maxHeartbeats 250000

/-- What a selector names of an element. -/
structure Chosen where
  tag : Option String := none
  elementId : Option String := none
  classes : List String := []
  attributes : List (String × String) := []
deriving DecidableEq

/-- The signal `to_selector` chooses. -/
def DomElement.chosen (e : DomElement) : Chosen :=
  match firstPresent testIdKeys e.attributes with
  | some (key, testId) => { attributes := [(key, testId)] }
  | none =>
    if truthy e.elementId then { elementId := e.elementId }
    else if e.classes ≠ [] then { tag := some e.tag, classes := e.classes.take 3 }
    else
      match firstPresent otherAttrs e.attributes with
      | some (attr, value) => { tag := some e.tag, attributes := [(attr, value)] }
      | none => { tag := some e.tag }

section
variable [Unicode]

/-- The printed selector is read as the signal and nothing else. -/
def DomElement.RoundTrips (e : DomElement) : Prop :=
  Reads e.toSelector e.chosen.tag e.chosen.elementId e.chosen.classes e.chosen.attributes

/-- A value that is read as a value and says nothing else; where it holds a `>`, the tag is read
from it. -/
structure QuietValue (value : String) (tag : Option String) : Prop where
  clean : CleanValue value
  ids : runsAfter '#' isNameChar value.toList = []
  classes : runsAfter '.' isClassChar value.toList = []
  text : TextFree value
  tag : '>' ∈ value.toList → headTag (lastSegment '>' value.toList) = tag

def DomElement.Printable (e : DomElement) : Prop :=
  match firstPresent testIdKeys e.attributes with
  | some (_, testId) => QuietValue testId none
  | none =>
    if truthy e.elementId then IsName isNameChar (e.elementId.getD "")
    else if e.classes ≠ [] then IsTag e.tag ∧ ∀ c ∈ e.classes.take 3, IsName isClassChar c
    else
      match firstPresent otherAttrs e.attributes with
      | some (_, value) => QuietValue value (some e.tag) ∧ ('>' ∉ value.toList → IsTag e.tag)
      | none => IsTag e.tag

/-! ## One lemma for each kind of selector -/

theorem isName_key : ∀ key ∈ testIdKeys ++ otherAttrs, IsName isNameChar key := by
  have hascii : ∀ key ∈ testIdKeys ++ otherAttrs, key.toList ≠ [] ∧ (key.toList.all fun c =>
      decide (c.toNat < 128 ∧ (c.isAlphanum || c == '_' || c == ':' || c == '-') = true)) := by
    decide
  intro key hkey
  obtain ⟨hne, hall⟩ := hascii key hkey
  refine ⟨hne, fun c hc => ?_⟩
  obtain ⟨hsmall, hname⟩ := forall_mem_of_all hall c hc
  rw [isNameChar_ascii hsmall]
  exact hname

/-- What is found as the id is a name. -/
theorem isName_of_elementId {s i : String} (h : (parseSelector s).elementId = some i) :
    IsName isNameChar i := by
  rw [elementId_parseSelector, Option.map_eq_some_iff] at h
  obtain ⟨w, hw, rfl⟩ := h
  have hrun := mem_runsAfter (List.mem_of_head? hw)
  unfold IsName
  rw [String.toList_ofList]
  exact hrun

theorem isName_of_class {s c : String} (h : c ∈ (parseSelector s).classes) :
    IsName isClassChar c := by
  rw [mem_classes_parseSelector] at h
  exact mem_runsAfter h

variable [LawfulUnicode]

omit [LawfulUnicode] in
/-- A tag is a lower-cased word. -/
theorem word_of_headTag {s : List Char} {tag : String} (h : headTag s = some tag) :
    ∃ c t, s.dropWhile isSpace = c :: t ∧ c.isAlpha = true ∧
      tag.toList = Unicode.lower (c :: t.takeWhile isClassChar) ∧ tag ≠ "text" ∧ tag ≠ "has" := by
  obtain ⟨w, hw, htag⟩ := Option.bind_eq_some_iff.mp h
  cases hs : s.dropWhile isSpace with
  | nil =>
    rw [hs] at hw
    cases hw
  | cons c t =>
    rw [hs, leadingWord_cons] at hw
    split at hw
    · next halpha =>
      obtain rfl := Option.some.inj hw
      unfold wordTag at htag
      split at htag
      · cases htag
      · next hreserved =>
        obtain rfl := Option.some.inj htag
        rw [not_or] at hreserved
        refine ⟨c, t, rfl, halpha, ?_, hreserved⟩
        unfold lower
        rw [String.toList_ofList, String.toList_ofList]
    · cases hw

/-- What is found as the tag holds no white space and nothing the patterns look for. -/
theorem chars_of_headTag {s : List Char} {tag : String} (h : headTag s = some tag) :
    ∀ c ∈ tag.toList, isSpace c = false ∧ c ∉ marks := by
  obtain ⟨c, t, -, halpha, hlower, -⟩ := word_of_headTag h
  have hword : ∀ d ∈ c :: t.takeWhile isClassChar, isClassChar d = true := by
    intro d hd
    rcases List.mem_cons.mp hd with rfl | hd
    · exact (isClassChar_of_isAlpha halpha).2
    · exact List.mem_takeWhile_imp hd
  intro d hd
  rw [hlower] at hd
  rcases LawfulUnicode.mem_lower _ d hd with hmem | ⟨hspace, halnum⟩
  · refine ⟨?_, isClassChar_bare (hword d hmem)⟩
    by_contra hspace
    rw [Bool.not_eq_false] at hspace
    have hclass := (not_class_of_isSpace hspace).2
    rw [hword d hmem] at hclass
    cases hclass
  · refine ⟨hspace, fun hmem => ?_⟩
    have hascii : ∀ e ∈ marks, e.toNat < 128 ∧ e.isAlphanum = false :=
      forall_mem_of_all (by decide)
    have hfalse := (hascii d hmem).2
    rw [halnum (hascii d hmem).1] at hfalse
    cases hfalse

/-- A tag that is read as itself is well formed. -/
theorem isTag_of_headTag {tag : String} {s : List Char} (h : headTag (tag.toList ++ s) = some tag)
    (hs : ∀ c ∈ s.head?, isSpace c = false ∧ c.isAlpha = false ∧ isClassChar c = false) :
    IsTag tag := by
  have hchars := chars_of_headTag h
  obtain ⟨c, t, hdrop, halpha, hlower, htext, hhas⟩ := word_of_headTag h
  cases htag : tag.toList with
  | nil =>
    rw [htag, List.nil_append, headTag_none fun d hd => ⟨(hs d hd).1, (hs d hd).2.1⟩] at h
    cases h
  | cons d r =>
    have hspace : isSpace d = false := (hchars d (htag ▸ List.mem_cons_self)).1
    rw [htag, List.cons_append, List.dropWhile_cons, hspace, if_neg Bool.false_ne_true] at hdrop
    obtain ⟨rfl, rfl⟩ := List.cons.inj hdrop
    -- the word is the tag up to its first character outside of words, and lower-cased it is the tag
    have hrun : (r ++ s).takeWhile isClassChar = r.takeWhile isClassChar :=
      takeWhile_append_head (fun e he => (hs e he).2.2) r
    have hsplit : r.takeWhile isClassChar ++ r.dropWhile isClassChar = r :=
      List.takeWhile_append_dropWhile
    rw [hrun] at hlower
    have hprefix : Unicode.lower (d :: r.takeWhile isClassChar) =
        (d :: r.takeWhile isClassChar) ++ r.dropWhile isClassChar := by
      rw [← hlower, htag, List.cons_append, hsplit]
    have hnil := LawfulUnicode.lower_prefix _ _ hprefix
    rw [hnil, List.append_nil] at hsplit
    rw [hnil, List.append_nil, hsplit] at hprefix
    refine ⟨⟨d, r, htag, halpha, ?_⟩, ?_, htext, hhas⟩
    · intro e he
      rw [← hsplit] at he
      exact List.mem_takeWhile_imp he
    · unfold lower
      rw [htag, hprefix, ← htag, String.ofList_toList]

theorem reads_id_iff (i : String) :
    Reads ("#" ++ i) none (some i) [] [] ↔ IsName isNameChar i := by
  constructor
  · exact fun h => isName_of_elementId h.elementId
  · intro hi
    let sel : CompoundSelector :=
      { elementId := some i
        tag_ok := fun _ h => by cases h
        elementId_ok := fun _ h => Option.some.inj h ▸ hi
        classes_ok := fun _ h => by cases h
        keys_ok := fun _ h => by cases h
        keys_nodup := by simp
        values_ok := fun _ h => by cases h }
    refine sel.reads_bare rfl ?_
    rw [String.toList_append]
    exact (List.append_nil _).symm

/-- A tag with classes; without classes it is a bare tag. -/
theorem reads_classes_iff (tag : String) (cs : List String) :
    Reads (tag ++ String.join (cs.map fun c => "." ++ c)) (some tag) none cs [] ↔
      IsTag tag ∧ ∀ c ∈ cs, IsName isClassChar c := by
  have hchars : (tag ++ String.join (cs.map fun c => "." ++ c)).toList =
      tag.toList ++ cs.flatMap CompoundSelector.classChars := by
    rw [String.toList_append, String.toList_join, List.flatMap_map]
    congr 1
    refine congrArg (cs.flatMap ·) (funext fun c => ?_)
    rw [String.toList_append]
    rfl
  constructor
  · intro h
    have hclasses : ∀ c ∈ cs, IsName isClassChar c :=
      fun c hc => isName_of_class ((h.classes c).mpr hc)
    refine ⟨?_, hclasses⟩
    have hhead : ∀ c ∈ (cs.flatMap CompoundSelector.classChars).head?,
        isSpace c = false ∧ c.isAlpha = false ∧ isClassChar c = false := by
      intro c hc
      rw [head_classChars cs c hc]
      exact ⟨by decide, by decide, (mark_not_name (by decide)).1⟩
    have htag := h.tag
    rw [tag_parseSelector, parseTag_eq, hchars] at htag
    have hnot : '>' ∉ tag.toList ++ cs.flatMap CompoundSelector.classChars := by
      intro hmem
      rcases List.mem_append.mp hmem with hc | hc
      · exact (chars_of_headTag htag '>' hc).2 (by decide)
      · rcases mem_classChars hclasses hc with heq | hmarks
        · exact absurd heq (by decide)
        · exact hmarks (by decide)
    rw [lastSegment_of_not_mem hnot] at htag
    exact isTag_of_headTag htag hhead
  · rintro ⟨htag, hclasses⟩
    let sel : CompoundSelector :=
      { tag := some tag
        classes := cs
        tag_ok := fun _ h => Option.some.inj h ▸ htag
        elementId_ok := fun _ h => by cases h
        classes_ok := hclasses
        keys_ok := fun _ h => by cases h
        keys_nodup := by simp
        values_ok := fun _ h => by cases h }
    refine sel.reads_bare rfl ?_
    rw [hchars]
    show _ = tag.toList ++ [] ++ _
    rw [List.append_nil]

omit [Unicode] [LawfulUnicode] in
theorem no_class_iff {runs : List (List Char)} :
    (∀ c : String, c.toList ∈ runs ↔ c ∈ []) ↔ runs = [] := by
  rw [List.eq_nil_iff_forall_not_mem]
  constructor
  · intro h w hw
    have hnone := (h (String.ofList w)).mp (by rw [String.toList_ofList]; exact hw)
    cases hnone
  · intro h c
    exact ⟨fun hc => absurd hc (h _), fun hc => by cases hc⟩

omit [LawfulUnicode] in
theorem tagText_singleton {value key : String} {pre : List Char} {tag : Option String}
    (htag : '>' ∈ value.toList ∨ headTag pre = tag) :
    headTag (tagText pre [(key, value)]) = tag ↔
      ('>' ∈ value.toList → headTag (lastSegment '>' value.toList) = tag) := by
  unfold tagText
  by_cases hmem : '>' ∈ value.toList
  · simp [hmem]
  · simp [hmem, htag.resolve_left hmem]

/-- An attribute behind a text of which the patterns for ids and classes read nothing. -/
theorem reads_attr_iff {s key value : String} {pre : List Char} {tag : Option String}
    (hs : s.toList = pre ++ attrChars (key, value)) (hkey : IsName isNameChar key)
    (hpre : ∀ c ∈ pre, c ∉ marks)
    (htag : '>' ∈ value.toList ∨ headTag pre = tag) :
    Reads s tag none [] [(key, value)] ↔ QuietValue value tag := by
  have hattributes : Reads s tag none [] [(key, value)] → CleanValue value := by
    intro h
    have hvalues := clean_parseAttributes s.toList
    rw [← attributes_parseSelector, h.attributes] at hvalues
    exact hvalues (key, value) List.mem_cons_self
  have hiff : CleanValue value → (Reads s tag none [] [(key, value)] ↔ QuietValue value tag) := by
    intro hclean
    have hchars : s.toList = pre ++ [(key, value)].flatMap attrChars := by
      rw [hs, List.flatMap_singleton]
    have hbare : Bare pre :=
      fun c hc hmem => hpre c hc (List.mem_append_left ['#', '.', '"', ']'] hmem)
    have hruns : ∀ (x : Char) (p : Char → Bool), x ∈ marks → runsAfter x p pre = [] :=
      fun x p hx => runsAfter_eq_nil fun hc => hpre x hc hx
    rw [reads_attrs_iff hchars hbare (by simpa using hkey) (by simpa using hclean) (by simp) tag
      none [], tagText_singleton htag, hruns _ _ (by decide), hruns _ _ (by decide), List.nil_append,
      List.nil_append, List.flatMap_singleton, List.flatMap_singleton]
    have hids : (runsAfter '#' isNameChar value.toList).head?.map String.ofList = none ↔
        runsAfter '#' isNameChar value.toList = [] := by
      rw [Option.map_eq_none_iff, List.head?_eq_none_iff]
    rw [hids, no_class_iff]
    constructor
    · rintro ⟨ht, hi, hc, hfree⟩
      exact ⟨hclean, hi, hc, hfree (key, value) List.mem_cons_self, ht⟩
    · intro h
      refine ⟨h.tag, h.ids, h.classes, fun kv hkv => ?_⟩
      rw [List.mem_singleton.mp hkv]
      exact h.text
  constructor
  · exact fun h => (hiff (hattributes h)).mp h
  · exact fun h => (hiff h.clean).mpr h

/-- A tag with an attribute. -/
theorem reads_tag_attr_iff {tag key value : String} (hkey : IsName isNameChar key) :
    Reads (tag ++ attrSelector key value) (some tag) none [] [(key, value)] ↔
      QuietValue value (some tag) ∧ ('>' ∉ value.toList → IsTag tag) := by
  have hchars : (tag ++ attrSelector key value).toList = tag.toList ++ attrChars (key, value) := by
    rw [String.toList_append, toList_attrSelector]
  have hself : IsTag tag → headTag tag.toList = some tag := by
    intro h
    have hread := h.headTag (s := []) fun c hc => by cases hc
    rw [List.append_nil] at hread
    exact hread
  constructor
  · intro h
    have htag := h.tag
    rw [tag_parseSelector, parseTag_eq, hchars] at htag
    have hpre := fun c hc => (chars_of_headTag htag c hc).2
    by_cases hmem : '>' ∈ value.toList
    · exact ⟨(reads_attr_iff hchars hkey hpre (Or.inl hmem)).mp h, fun hnot => absurd hmem hnot⟩
    · have hnot : '>' ∉ tag.toList ++ attrChars (key, value) := by
        have hname : '>' ∉ key.toList := fun hc => isNameChar_bare (hkey.2 '>' hc) (by decide)
        have hbare : '>' ∉ tag.toList := fun hc => hpre '>' hc (by decide)
        simp [attrChars, hname, hbare, hmem]
      rw [lastSegment_of_not_mem hnot] at htag
      have hwell : IsTag tag := isTag_of_headTag htag
        (forall_mem_head ⟨by decide, by decide, (mark_not_name (by decide)).1⟩)
      exact ⟨(reads_attr_iff hchars hkey hpre (Or.inr (hself hwell))).mp h, fun _ => hwell⟩
  · rintro ⟨hquiet, hwell⟩
    by_cases hmem : '>' ∈ value.toList
    · have hpre := fun c hc => (chars_of_headTag (hquiet.tag hmem) c hc).2
      exact (reads_attr_iff hchars hkey hpre (Or.inl hmem)).mpr hquiet
    · have hpre := fun c hc => isClassChar_bare ((hwell hmem).class_chars c hc)
      exact (reads_attr_iff hchars hkey hpre (Or.inr (hself (hwell hmem)))).mpr hquiet

/-- The printed selector of an element is read as the signal it was chosen for, and nothing else,
exactly if the element is printable. -/
theorem roundTrips_iff (e : DomElement) : e.RoundTrips ↔ e.Printable := by
  unfold DomElement.RoundTrips DomElement.Printable DomElement.toSelector DomElement.chosen
  cases htest : firstPresent testIdKeys e.attributes with
  | some kv =>
    obtain ⟨key, testId⟩ := kv
    have hkey := isName_key key (List.mem_append_left _ (firstPresent_mem htest))
    have hchars : (attrSelector key testId).toList = [] ++ attrChars (key, testId) :=
      toList_attrSelector key testId
    exact reads_attr_iff hchars hkey (fun c hc => by cases hc) (Or.inr rfl)
  | none =>
    dsimp only
    by_cases hid : truthy e.elementId = true
    · simp only [hid, if_true]
      cases helement : e.elementId with
      | none =>
        rw [helement] at hid
        cases hid
      | some i => exact reads_id_iff i
    · simp only [hid, if_false, Bool.false_eq_true]
      by_cases hclasses : e.classes ≠ []
      · simp only [hclasses, if_true, ne_eq, not_false_eq_true]
        exact reads_classes_iff e.tag (e.classes.take 3)
      · simp only [hclasses, if_false]
        cases hattr : firstPresent otherAttrs e.attributes with
        | none =>
          have hbare := reads_classes_iff e.tag []
          rw [List.map_nil, String.join_nil, String.append_empty] at hbare
          simpa using hbare
        | some kv =>
          obtain ⟨attr, value⟩ := kv
          exact reads_tag_attr_iff (isName_key attr
            (List.mem_append_right _ (firstPresent_mem hattr)))

end

def submitElement : DomElement :=
  { tag := "button"
    elementId := none
    classes := ["btn", "primary"]
    attributes := [("class", "btn primary"), ("type", "submit")]
    text := "Go" }

theorem submit_roundTrips : @DomElement.RoundTrips asciiUnicode submitElement := by
  let _ : Unicode := asciiUnicode
  refine (@roundTrips_iff asciiUnicode asciiUnicode_lawful submitElement).mpr ⟨?_, by decide⟩
  exact ⟨⟨'b', "utton".toList, rfl, by decide, List.all_eq_true.mp (by decide)⟩, by decide,
    by decide, by decide⟩

def itemElement : DomElement :=
  { tag := "a"
    elementId := some "item.3"
    classes := []
    attributes := [("id", "item.3")]
    text := "Third" }

/-- A dot in an id is read as the start of a class. -/
theorem item_counterexample :
    let _ : Unicode := asciiUnicode
    parseDom (fun _ => .ok [⟨"a", [("id", .single "item.3")], "Third"⟩]) "<a id=\"item.3\">Third</a>" =
        .ok [itemElement] ∧
      itemElement.toSelector = "#item.3" ∧
      (parseSelector "#item.3").elementId = some "item" ∧
      (parseSelector "#item.3").classes = ["3"] ∧ ¬ itemElement.RoundTrips := by
  intro _
  have hid : (parseSelector "#item.3").elementId = some "item" := by decide +kernel
  refine ⟨by decide +kernel, by decide +kernel, hid, by decide +kernel, ?_⟩
  intro h
  have hread := h.elementId
  have hprinted : itemElement.toSelector = "#item.3" := by decide +kernel
  rw [hprinted, hid] at hread
  exact absurd hread (by decide +kernel)

end AegisPlatform.Healing
