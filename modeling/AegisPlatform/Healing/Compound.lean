import AegisPlatform.Healing.Reading

/-! # Compound selectors

`tag#id.class[key="value"]`, with any of the parts. Such a selector is read as its parts exactly if
no value says something to the patterns for ids, classes, texts and tags; `Unmistakable` is that
condition.
-/

namespace AegisPlatform.Healing
open Foundations Foundations.Regex
set_option autoImplicit false
set_option maxHeartbeats 250000

section
variable [Unicode]

/-- A lower-case tag that is no engine prefix. -/
structure IsTag (tag : String) : Prop where
  word : ∃ c s, tag.toList = c :: s ∧ c.isAlpha = true ∧ ∀ d ∈ s, isClassChar d = true
  lower : lower tag = tag
  not_text : tag ≠ "text"
  not_has : tag ≠ "has"

structure CompoundSelector where
  tag : Option String := none
  elementId : Option String := none
  classes : List String := []
  attributes : List (String × String) := []
  tag_ok : ∀ t ∈ tag, IsTag t
  elementId_ok : ∀ i ∈ elementId, IsName isNameChar i
  classes_ok : ∀ c ∈ classes, IsName isClassChar c
  keys_ok : ∀ kv ∈ attributes, IsName isNameChar kv.1
  keys_nodup : (attributes.map Prod.fst).Nodup
  values_ok : ∀ kv ∈ attributes, CleanValue kv.2

namespace CompoundSelector

def idChars : Option String → List Char
  | none => []
  | some i => '#' :: i.toList

def classChars (c : String) : List Char := '.' :: c.toList

/-- The selector up to its attributes. -/
def bareChars (sel : CompoundSelector) : List Char :=
  (sel.tag.getD "").toList ++ idChars sel.elementId ++ sel.classes.flatMap classChars

def print (sel : CompoundSelector) : String :=
  String.ofList (sel.bareChars ++ sel.attributes.flatMap attrChars)

/-- No value is mistaken for another part. -/
structure Unmistakable (sel : CompoundSelector) : Prop where
  tag : ∀ kv ∈ (sel.attributes.filter fun kv => decide ('>' ∈ kv.2.toList)).getLast?,
    headTag (lastSegment '>' kv.2.toList) = sel.tag
  elementId : sel.elementId = none →
    ∀ kv ∈ sel.attributes, runsAfter '#' isNameChar kv.2.toList = []
  classes : ∀ kv ∈ sel.attributes, ∀ w ∈ runsAfter '.' isClassChar kv.2.toList,
    String.ofList w ∈ sel.classes
  text : ∀ kv ∈ sel.attributes, TextFree kv.2

end CompoundSelector

/-! ## The bare part -/

theorem IsTag.class_chars {t : String} (h : IsTag t) : ∀ c ∈ t.toList, isClassChar c = true := by
  obtain ⟨c, s, hlist, halpha, hs⟩ := h.word
  rw [hlist]
  intro d hd
  rcases List.mem_cons.mp hd with rfl | hd
  · exact (isClassChar_of_isAlpha halpha).2
  · exact hs d hd

/-- A text that begins with a word is read as that word. -/
theorem headTag_word [LawfulUnicode] {c : Char} {w s : List Char} (hc : c.isAlpha = true)
    (hw : ∀ d ∈ w, isClassChar d = true) (hs : ∀ d ∈ s.head?, isClassChar d = false) :
    headTag (c :: w ++ s) = wordTag (c :: w) := by
  have hspace : isSpace c = false := by
    by_contra hspace
    rw [Bool.not_eq_false] at hspace
    rw [(not_class_of_isSpace hspace).1] at hc
    cases hc
  unfold headTag
  rw [List.cons_append, List.dropWhile_cons, hspace, if_neg Bool.false_ne_true,
    leadingWord_cons, if_pos hc, takeWhile_run hw hs, Option.bind_some]

/-- A text that begins with a tag is read as that tag. -/
theorem IsTag.headTag [LawfulUnicode] {t : String} (h : IsTag t) {s : List Char}
    (hs : ∀ c ∈ s.head?, isClassChar c = false) : headTag (t.toList ++ s) = some t := by
  obtain ⟨c, w, hlist, halpha, hw⟩ := h.word
  have hword : t = String.ofList (c :: w) := by rw [← hlist, String.ofList_toList]
  rw [hlist, headTag_word halpha hw hs]
  unfold wordTag
  rw [← hword, h.lower, if_neg]
  rintro (htext | hhas)
  · exact h.not_text htext
  · exact h.not_has hhas

theorem headTag_none {s : List Char} (hs : ∀ c ∈ s.head?, isSpace c = false ∧ c.isAlpha = false) :
    headTag s = none := by
  cases s with
  | nil => rfl
  | cons c s =>
    obtain ⟨hspace, halpha⟩ := hs c rfl
    unfold headTag
    rw [List.dropWhile_cons, hspace, if_neg Bool.false_ne_true, leadingWord_cons, halpha]
    rfl

omit [Unicode] in
theorem head_classChars (cs : List String) :
    ∀ c ∈ (cs.flatMap CompoundSelector.classChars).head?, c = '.' := by
  intro c hc
  cases cs with
  | nil => cases hc
  | cons cls cs => exact (Option.some.inj hc).symm

theorem mem_classChars {cs : List String} (hcs : ∀ c ∈ cs, IsName isClassChar c) {d : Char}
    (hd : d ∈ cs.flatMap CompoundSelector.classChars) : d = '.' ∨ d ∉ marks := by
  obtain ⟨c, hc, hmem⟩ := List.mem_flatMap.mp hd
  rcases List.mem_cons.mp hmem with heq | hmem
  · exact Or.inl heq
  · exact Or.inr (isClassChar_bare ((hcs c hc).2 d hmem))

/-- The classes of a selector are the runs behind its dots. -/
theorem runsAfter_classChars {cs : List String} (hcs : ∀ c ∈ cs, IsName isClassChar c) :
    runsAfter '.' isClassChar (cs.flatMap CompoundSelector.classChars) = cs.map String.toList := by
  induction cs with
  | nil => rfl
  | cons c cs ih =>
    obtain ⟨hne, hname⟩ := hcs c List.mem_cons_self
    have hhead : ∀ d ∈ (cs.flatMap CompoundSelector.classChars).head?, isClassChar d = false := by
      intro d hd
      rw [head_classChars cs d hd]
      exact (mark_not_name (by decide)).1
    have hnot : '.' ∉ c.toList := fun hmem => isClassChar_bare (hname '.' hmem) (by decide)
    rw [List.flatMap_cons, CompoundSelector.classChars, List.cons_append, runsAfter_cons,
      takeWhile_run hname hhead, if_pos ⟨rfl, hne⟩, runsAfter_of_not_mem hnot,
      ih fun c' hc' => hcs c' (List.mem_cons_of_mem c hc'), List.map_cons]

namespace CompoundSelector

variable (sel : CompoundSelector)

theorem tag_class_chars : ∀ c ∈ (sel.tag.getD "").toList, isClassChar c = true := by
  intro c hc
  cases htag : sel.tag with
  | none =>
    rw [htag] at hc
    cases hc
  | some t =>
    rw [htag] at hc
    exact (sel.tag_ok t htag).class_chars c hc

theorem mem_idChars {c : Char} (hc : c ∈ idChars sel.elementId) : c = '#' ∨ c ∉ marks := by
  cases hid : sel.elementId with
  | none =>
    rw [hid] at hc
    cases hc
  | some i =>
    rw [hid] at hc
    rcases List.mem_cons.mp hc with heq | hc
    · exact Or.inl heq
    · exact Or.inr (isNameChar_bare ((sel.elementId_ok i hid).2 c hc))

/-- Up to its attributes, a selector has only the marks of ids and classes. -/
theorem mem_bareChars {c : Char} (hc : c ∈ sel.bareChars) : c = '#' ∨ c = '.' ∨ c ∉ marks := by
  rcases List.mem_append.mp hc with hc | hc
  · rcases List.mem_append.mp hc with hc | hc
    · exact Or.inr (Or.inr (isClassChar_bare (sel.tag_class_chars c hc)))
    · exact (sel.mem_idChars hc).imp_right Or.inr
  · exact Or.inr (mem_classChars sel.classes_ok hc)

theorem bare_bareChars : Bare sel.bareChars := by
  intro c hc
  rcases sel.mem_bareChars hc with rfl | rfl | hmarks
  · decide
  · decide
  · exact fun hmem => hmarks (List.mem_append_left ['#', '.', '"', ']'] hmem)

theorem ids_bareChars :
    runsAfter '#' isNameChar sel.bareChars = sel.elementId.toList.map String.toList := by
  have htag : '#' ∉ (sel.tag.getD "").toList :=
    fun hmem => isClassChar_bare (sel.tag_class_chars '#' hmem) (by decide)
  have hclasses : '#' ∉ sel.classes.flatMap classChars := by
    intro hmem
    rcases mem_classChars sel.classes_ok hmem with heq | hmarks
    · exact absurd heq (by decide)
    · exact hmarks (by decide)
  have hnone : runsAfter '#' isNameChar (sel.classes.flatMap classChars) = [] :=
    runsAfter_eq_nil hclasses
  unfold bareChars
  rw [List.append_assoc, runsAfter_of_not_mem htag]
  cases hid : sel.elementId with
  | none => exact hnone
  | some i =>
    obtain ⟨hne, hname⟩ := sel.elementId_ok i hid
    have hnot : '#' ∉ i.toList := fun hmem => isNameChar_bare (hname '#' hmem) (by decide)
    have hhead : ∀ c ∈ (sel.classes.flatMap classChars).head?, isNameChar c = false := by
      intro c hc
      rw [head_classChars sel.classes c hc]
      exact (mark_not_name (by decide)).2
    rw [idChars, List.cons_append, runsAfter_cons, takeWhile_run hname hhead,
      if_pos ⟨rfl, hne⟩, runsAfter_of_not_mem hnot, hnone]
    rfl

theorem classes_bareChars :
    runsAfter '.' isClassChar sel.bareChars = sel.classes.map String.toList := by
  have hnot : '.' ∉ (sel.tag.getD "").toList ++ idChars sel.elementId := by
    intro hmem
    rcases List.mem_append.mp hmem with hc | hc
    · exact isClassChar_bare (sel.tag_class_chars '.' hc) (by decide)
    · rcases sel.mem_idChars hc with heq | hmarks
      · exact absurd heq (by decide)
      · exact hmarks (by decide)
  unfold bareChars
  rw [runsAfter_of_not_mem hnot, runsAfter_classChars sel.classes_ok]

/-- Behind the tag stands nothing that could prolong it. -/
theorem head_behind_tag :
    ∀ c ∈ (idChars sel.elementId ++ sel.classes.flatMap classChars).head?, c = '#' ∨ c = '.' := by
  intro c hc
  cases hid : sel.elementId with
  | some i =>
    rw [hid] at hc
    exact Or.inl (Option.some.inj hc).symm
  | none =>
    rw [hid] at hc
    exact Or.inr (head_classChars sel.classes c hc)

variable [LawfulUnicode]

theorem headTag_bareChars : headTag sel.bareChars = sel.tag := by
  unfold bareChars
  rw [List.append_assoc]
  cases htag : sel.tag with
  | none =>
    refine headTag_none fun c hc => ?_
    rcases sel.head_behind_tag c hc with rfl | rfl
    · decide
    · decide
  | some t =>
    refine (sel.tag_ok t htag).headTag fun c hc => ?_
    rcases sel.head_behind_tag c hc with rfl | rfl
    · exact (mark_not_name (by decide)).1
    · exact (mark_not_name (by decide)).1

theorem tagText_eq_iff : headTag (tagText sel.bareChars sel.attributes) = sel.tag ↔
    ∀ kv ∈ (sel.attributes.filter fun kv => decide ('>' ∈ kv.2.toList)).getLast?,
      headTag (lastSegment '>' kv.2.toList) = sel.tag := by
  unfold tagText
  cases (sel.attributes.filter fun kv => decide ('>' ∈ kv.2.toList)).getLast? with
  | none => simp [sel.headTag_bareChars]
  | some kv => simp

/-- A compound selector is read as its parts exactly if no value is mistaken for another part. -/
theorem reads_iff :
    Reads sel.print sel.tag sel.elementId sel.classes sel.attributes ↔ sel.Unmistakable := by
  have hprint : sel.print.toList = sel.bareChars ++ sel.attributes.flatMap attrChars := by
    unfold print
    rw [String.toList_ofList]
  rw [reads_attrs_iff hprint sel.bare_bareChars sel.keys_ok sel.values_ok sel.keys_nodup,
    sel.tagText_eq_iff, sel.ids_bareChars, sel.classes_bareChars]
  have hid : ((sel.elementId.toList.map String.toList ++ sel.attributes.flatMap fun kv =>
      runsAfter '#' isNameChar kv.2.toList).head?.map String.ofList = sel.elementId) ↔
      (sel.elementId = none → ∀ kv ∈ sel.attributes, runsAfter '#' isNameChar kv.2.toList = []) := by
    cases sel.elementId with
    | none => simp
    | some i => simp
  have hclass : (∀ c : String, c.toList ∈ sel.classes.map String.toList ++
      (sel.attributes.flatMap fun kv => runsAfter '.' isClassChar kv.2.toList) ↔
        c ∈ sel.classes) ↔
      ∀ kv ∈ sel.attributes, ∀ w ∈ runsAfter '.' isClassChar kv.2.toList,
        String.ofList w ∈ sel.classes := by
    have hmap : ∀ c : String, c.toList ∈ sel.classes.map String.toList ↔ c ∈ sel.classes :=
      fun c => List.mem_map_of_injective fun a b => String.toList_inj.mp
    constructor
    · intro h kv hkv w hw
      refine (h (String.ofList w)).mp (List.mem_append_right _ ?_)
      rw [String.toList_ofList]
      exact List.mem_flatMap.mpr ⟨kv, hkv, hw⟩
    · intro h c
      rw [List.mem_append, hmap]
      refine ⟨?_, Or.inl⟩
      rintro (hc | hc)
      · exact hc
      · obtain ⟨kv, hkv, hw⟩ := List.mem_flatMap.mp hc
        have hmem := h kv hkv c.toList hw
        rw [String.ofList_toList] at hmem
        exact hmem
  rw [hid, hclass]
  constructor
  · rintro ⟨ht, hi, hc, hfree⟩
    exact ⟨ht, hi, hc, hfree⟩
  · rintro ⟨ht, hi, hc, hfree⟩
    exact ⟨ht, hi, hc, hfree⟩

/-- Without attributes there is nothing to mistake. -/
theorem reads_bare (h : sel.attributes = []) {s : String} (hs : s.toList = sel.bareChars) :
    Reads s sel.tag sel.elementId sel.classes [] := by
  have hprint : sel.print = s := by
    rw [← String.toList_inj, hs, print, String.toList_ofList, h]
    simp
  rw [← hprint, ← h, reads_iff]
  have hnone : ∀ kv ∈ sel.attributes, False := fun kv hkv => by
    rw [h] at hkv
    cases hkv
  exact
    { tag := fun kv hkv => by
        rw [h] at hkv
        cases hkv
      elementId := fun _ kv hkv => (hnone kv hkv).elim
      classes := fun kv hkv => (hnone kv hkv).elim
      text := fun kv hkv => (hnone kv hkv).elim }

end CompoundSelector

end

end AegisPlatform.Healing
