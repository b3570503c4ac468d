import AegisPlatform.Healing.Reading

/-! # Free text in a selector

`text=…` and `:has-text("…")` carry text that is no CSS, and all five patterns look into it. Such a
selector is read as its text and nothing else exactly if the text says nothing to any of them;
`PlainText` is that condition.
-/

namespace AegisPlatform.Healing
open Foundations Foundations.Regex
set_option autoImplicit false
set_option maxHeartbeats 250000

section
variable [Unicode]

/-- An attribute without quotes stands at the head of the text. -/
inductive OpensAttribute : List Char → Prop
  | bare (name s rest : List Char) (hne : name ≠ []) (hname : ∀ c ∈ name, isNameChar c = true)
      (hs : ∀ c ∈ s, isSpace c = true) : OpensAttribute ('[' :: (name ++ (s ++ ']' :: rest)))
  | valued (name s op value rest : List Char) (hne : name ≠ [])
      (hname : ∀ c ∈ name, isNameChar c = true) (hs : ∀ c ∈ s, isSpace c = true)
      (hop : op = [] ∨ ∃ c, "*^$|~".toList.contains c = true ∧ op = [c]) (hvalue : ']' ∉ value) :
      OpensAttribute ('[' :: (name ++ (s ++ (op ++ '=' :: (value ++ ']' :: rest)))))

/-- A text none of the patterns but the one for texts finds anything in, and that one all of it. -/
structure PlainText (t : String) : Prop where
  text : ∀ c ∈ t.toList, noneOf "'\")" c = true
  elementId : runsAfter '#' isNameChar t.toList = []
  classes : runsAfter '.' isClassChar t.toList = []
  attributes : ∀ u, u <:+ t.toList → ¬ OpensAttribute u
  tag : '>' ∈ t.toList → headTag (lastSegment '>' t.toList) = none

/-- The hints are the stripped text and nothing else. -/
structure OnlyText (hints : SelectorHints) (t : String) : Prop where
  text : hints.text = some (String.ofList (strip t.toList))
  elementId : hints.elementId = none
  classes : hints.classes = []
  attributes : hints.attributes = []
  tag : hints.tag = none

/-! ## Attributes -/

theorem OpensAttribute.head {u : List Char} (h : OpensAttribute u) : u.head? = some '[' := by
  cases h with
  | bare => rfl
  | valued => rfl

theorem matchAt_attr_opens {u : List Char} (h : OpensAttribute u) (hu : ∀ c ∈ u, ¬ IsQuote c)
    (t : List Char) : matchAt attrRe (u ++ t) ≠ none := by
  rw [ne_eq, matchAt_eq_none_iff]
  intro hnone
  cases h with
  | bare name s rest hne hname hs =>
    refine hnone (rest ++ t) _ ⟨_, _, ⟨'[', rfl, by decide, rfl⟩, s ++ ']' :: (rest ++ t), _,
      ⟨_, eats_some1.mpr ⟨name, hne, ?_, hname, rfl⟩, rfl⟩, ']' :: (rest ++ t), _,
      ⟨s, rfl, hs, rfl⟩, _, _, Or.inr ⟨rfl, rfl⟩, ']', rfl, by decide, rfl⟩
    simp
  | valued name s op value rest hne hname hs hop hvalue =>
    have hclean : ∀ c ∈ value, noneOf "'\"]" c = true := by
      intro c hc
      have hquote := hu c (by simp [hc])
      have hlist : "'\"]".toList = ['\'', '"', ']'] := rfl
      rw [noneOf_iff, hlist]
      intro hmem
      simp only [List.mem_cons, List.not_mem_nil, or_false] at hmem
      rcases hmem with h | h | rfl
      · exact hquote (Or.inl h)
      · exact hquote (Or.inr h)
      · exact hvalue hc
    have hempty : ∀ c ∈ ([] : List Char), isSpace c = true :=
      fun _ hc => absurd hc List.not_mem_nil
    refine hnone (rest ++ t) _ ⟨_, _, ⟨'[', rfl, by decide, rfl⟩,
      s ++ (op ++ '=' :: (value ++ ']' :: (rest ++ t))), _,
      ⟨_, eats_some1.mpr ⟨name, hne, ?_, hname, rfl⟩, rfl⟩, _, _, ⟨s, rfl, hs, rfl⟩, _, _,
      Or.inl ⟨_, _, eats_opt_one.mpr ⟨op, hop, rfl, rfl⟩, _, _, ⟨'=', rfl, by decide, rfl⟩, _, _,
        ⟨[], rfl, hempty, rfl⟩, _, _, Or.inr ⟨rfl, rfl⟩, _, _, ⟨_, ⟨value, rfl, hclean, rfl⟩, rfl⟩,
        Or.inr ⟨rfl, rfl⟩⟩, ']', rfl, by decide, rfl⟩
    simp

/-- An attribute that begins in a text without quotes ends in it, if no `]` comes behind. -/
theorem opens_of_matchAt {u t : List Char} (hu : ∀ c ∈ u, ¬ IsQuote c) (ht : ']' ∉ t)
    (h : matchAt attrRe (u ++ t) ≠ none) : OpensAttribute u := by
  obtain ⟨⟨caps, rest⟩, hmatch⟩ := Option.ne_none_iff_exists'.mp h
  obtain ⟨_, _, ⟨c, heq, hc, -⟩, _, _, ⟨_, hkey, -⟩, _, _, ⟨s, rfl, hs, -⟩, _, _, hoption,
    d, rfl, hd, -⟩ := matchAt_eats hmatch
  obtain ⟨name, hne, rfl, hname, -⟩ := eats_some1.mp hkey
  obtain rfl := eq_of_beq hc
  obtain rfl := eq_of_beq hd
  rcases hoption with ⟨_, _, hop, _, _, ⟨e, rfl, he, -⟩, _, _, ⟨s', rfl, hblank, -⟩, _, _, hopen, _, _,
    ⟨_, ⟨v, rfl, hv, -⟩, -⟩, hclose⟩ | ⟨hskip, -⟩
  · obtain rfl := eq_of_beq he
    obtain ⟨op, hop', rfl, -⟩ := eats_opt_one.mp hop
    obtain ⟨q, hq, rfl, -⟩ := eats_opt_one.mp hopen
    obtain ⟨q', hq', rfl, -⟩ := eats_opt_one.mp hclose
    have hsplit : u ++ t =
        ('[' :: (name ++ (s ++ (op ++ '=' :: (s' ++ (q ++ (v ++ q'))))))) ++ ']' :: rest := by
      simpa using heq
    obtain ⟨m, rfl⟩ := within ht hsplit
    have hnone : ∀ a : List Char, (a = [] ∨ ∃ c, "'\"".toList.contains c = true ∧ a = [c]) →
        (∀ c ∈ a, ¬ IsQuote c) → a = [] := by
      rintro a (rfl | ⟨c, hc, rfl⟩) ha
      · rfl
      · exact absurd ((isQuote_iff c).mp hc) (ha c (List.mem_singleton_self c))
    obtain rfl := hnone q hq fun c hc => hu c (by simp [hc])
    obtain rfl := hnone q' hq' fun c hc => hu c (by simp [hc])
    have hvalue : ']' ∉ s' ++ v := by
      intro hmem
      rcases List.mem_append.mp hmem with hmem | hmem
      · exact absurd (hblank ']' hmem) (by decide)
      · exact absurd (hv ']' hmem) (by decide)
    have hopens := OpensAttribute.valued name s op (s' ++ v) m hne hname hs hop' hvalue
    simpa using hopens
  · subst hskip
    have hsplit : u ++ t = ('[' :: (name ++ s)) ++ ']' :: rest := by simpa using heq
    obtain ⟨m, rfl⟩ := within ht hsplit
    have hopens := OpensAttribute.bare name s m hne hname hs
    simpa using hopens

/-- No attribute begins where no `[` stands. -/
theorem search_attr_append {a : List Char} (ha : '[' ∉ a) (s : List Char) :
    search attrRe (a ++ s) = none ↔ search attrRe s = none := by
  rw [search_append_eq_none_iff]
  refine and_iff_right fun u hu hne => ?_
  cases u with
  | nil => exact absurd rfl hne
  | cons c u =>
    refine matchAt_attr_none ?_ (u ++ s)
    rintro rfl
    exact ha (hu.mem List.mem_cons_self)

theorem search_attr_eq_none_iff {a t b : List Char} (ha : '[' ∉ a) (ht : ∀ c ∈ t, ¬ IsQuote c)
    (hb : '[' ∉ b) (hb' : ']' ∉ b) :
    search attrRe (a ++ (t ++ b)) = none ↔ ∀ u, u <:+ t → ¬ OpensAttribute u := by
  have hbehind : search attrRe b = none := by
    have hnil := (search_attr_append hb []).mpr rfl
    rwa [List.append_nil] at hnil
  rw [search_attr_append ha, search_append_eq_none_iff, and_iff_left hbehind]
  constructor
  · intro h u hu hopens
    have hne : u ≠ [] := by
      rintro rfl
      cases hopens
    exact matchAt_attr_opens hopens (fun c hc => ht c (hu.mem hc)) b (h u hu hne)
  · intro h u hu _
    by_contra hmatch
    exact h u hu (opens_of_matchAt (fun c hc => ht c (hu.mem hc)) hb' hmatch)

theorem parseAttributes_eq_nil_iff (s : List Char) :
    parseAttributes s = [] ↔ search attrRe s = none := by
  rw [← findAll_eq_nil_iff (by rfl)]
  unfold parseAttributes
  cases findAll attrRe 0 s with
  | nil => simp
  | cons caps found =>
    simp only [List.foldl_cons, reduceCtorEq, iff_false]
    refine List.foldlRecOn (motive := fun attributes : List (String × String) => attributes ≠ [])
      found _ (dictSet_ne_nil _ _ _) ?_
    exact fun _ _ _ _ => dictSet_ne_nil _ _ _

/-! ## Text -/

/-- No text that is read holds a quote or a `)`. -/
theorem text_chars {s t : String} (h : (parseSelector s).text = some t) :
    ∀ c ∈ t.toList, noneOf "'\")" c = true := by
  unfold parseSelector at h
  obtain ⟨caps, hsearch, rfl⟩ := Option.map_eq_some_iff.mp h
  obtain ⟨u, rest, hmatch⟩ := search_some hsearch
  obtain ⟨v, caps₁, -, caps₂, hrun, rfl⟩ := matchAt_eats hmatch
  obtain ⟨a, -, rfl, ha, rfl⟩ := eats_some1.mp hrun
  rw [take_matched]
  intro c hc
  rw [String.toList_ofList] at hc
  have hmem := mem_of_mem_strip hc
  unfold captured at hmem
  rw [List.lookup_cons_self, Option.map_some, Option.getD_some, String.toList_ofList] at hmem
  exact ha c hmem

variable {t b : List Char}

omit [Unicode] in
theorem matchAt_text_equals (hne : t ≠ []) (ht : ∀ c ∈ t, noneOf "'\")" c = true) :
    matchAt textRe ("text=".toList ++ t) = some ([(1, t)], []) := by
  unfold matchAt textRe
  rw [run_seq]
  refine run_alt _ ?_
  rw [run_literal, run_group]
  rw [← List.append_nil t]
  refine run_some1 hne ht nofun ?_
  rw [take_matched, List.append_nil]

omit [Unicode] in
theorem matchAt_text_hasText (hne : t ≠ []) (ht : ∀ c ∈ t, noneOf "'\")" c = true) :
    matchAt textRe ("has-text(".toList ++ '"' :: (t ++ ['"', ')'])) =
      some ([(1, t)], ['"', ')']) := by
  unfold matchAt textRe
  rw [run_seq, run_alt_skip _ (by rfl)]
  refine run_alt _ ?_
  rw [run_seq, run_literal]
  refine run_one (by decide) ?_
  rw [run_group]
  refine run_some1 hne ht (forall_mem_head (by decide)) ?_
  rw [take_matched]

/-- All of the text is read exactly if it holds no quote and no `)`. -/
theorem text_eq_iff {s t : String}
    (hsearch : (∀ c ∈ t.toList, noneOf "'\")" c = true) →
      search textRe s.toList = some [(1, t.toList)]) :
    (parseSelector s).text = some (String.ofList (strip t.toList)) ↔
      ∀ c ∈ t.toList, noneOf "'\")" c = true := by
  constructor
  · intro h c hc
    have hchars := text_chars h
    rw [String.toList_ofList] at hchars
    rcases mem_strip_or_isSpace hc with hmem | hspace
    · exact hchars c hmem
    · have hlist : "'\")".toList = ['\'', '"', ')'] := rfl
      rw [noneOf_iff, hlist]
      intro hmem
      have hspaces : ∀ d ∈ ['\'', '"', ')'], isSpace d = false := forall_mem_of_all (by decide)
      rw [hspaces c hmem] at hspace
      cases hspace
  · intro h
    unfold parseSelector
    dsimp only
    rw [hsearch h]
    simp [captured]

/-! ## Both forms -/

/-- What stands around the text: nothing the patterns look for, and behind it nothing that prolongs
a match. -/
structure Around (a b : List Char) : Prop where
  before : ∀ c ∈ ['#', '.', '[', '>'], c ∉ a
  behind : b = [] ∨ b = ['"', ')']

variable {a : List Char}

omit [Unicode] in
theorem Around.runs (h : Around a b) {x : Char} {p : Char → Bool} (hx : x ∈ ['#', '.'])
    (hp : p '"' = false) (t : List Char) : runsAfter x p (a ++ (t ++ b)) = runsAfter x p t := by
  have hx' : x ∈ ['#', '.', '[', '>'] := List.mem_append_left ['[', '>'] hx
  rw [runsAfter_of_not_mem (h.before x hx')]
  rcases h.behind with rfl | rfl
  · rw [List.append_nil]
  · have hdistinct : ∀ x ∈ ['#', '.'], '"' ≠ x ∧ x ∉ [')'] := forall_mem_of_all (by decide)
    obtain ⟨hquote, hparen⟩ := hdistinct x hx
    rw [runsAfter_barrier hquote hp, runsAfter_eq_nil hparen, List.append_nil]

theorem Around.headTag (h : Around a b) (t : List Char) : headTag (t ++ b) = headTag t := by
  rcases h.behind with rfl | rfl
  · rw [List.append_nil]
  · exact headTag_barrier (by decide) (by decide) (mark_not_name (by decide)).1 t [')']

/-- Such a selector is read as its text only exactly if the text is plain. -/
theorem onlyText_iff [LawfulUnicode] {s t : String} (h : Around a b)
    (hs : s.toList = a ++ (t.toList ++ b)) (hhead : Healing.headTag (a ++ t.toList) = none)
    (hsearch : (∀ c ∈ t.toList, noneOf "'\")" c = true) →
      search textRe s.toList = some [(1, t.toList)]) :
    OnlyText (parseSelector s) t ↔ PlainText t := by
  have htext := text_eq_iff hsearch
  have hid : (parseSelector s).elementId = none ↔ runsAfter '#' isNameChar t.toList = [] := by
    rw [elementId_parseSelector, hs, h.runs (by decide) (mark_not_name (by decide)).2,
      Option.map_eq_none_iff, List.head?_eq_none_iff]
  have hclass : (parseSelector s).classes = [] ↔ runsAfter '.' isClassChar t.toList = [] := by
    have hmem := mem_classes_parseSelector s
    rw [hs, h.runs (by decide) (mark_not_name (by decide)).1] at hmem
    rw [List.eq_nil_iff_forall_not_mem, List.eq_nil_iff_forall_not_mem]
    constructor
    · intro hnone w hw
      refine hnone (String.ofList w) ((hmem _).mpr ?_)
      rwa [String.toList_ofList]
    · exact fun hnone c hc => hnone c.toList ((hmem c).mp hc)
  have hbehind : ∀ c ∈ ['[', ']', '>'], c ∉ b := by
    intro c hc
    rcases h.behind with rfl | rfl
    · exact List.not_mem_nil
    · exact forall_mem_of_all (P := fun c => c ∉ ['"', ')']) (by decide) c hc
  have htag : (parseSelector s).tag = none ↔
      ('>' ∈ t.toList → Healing.headTag (lastSegment '>' t.toList) = none) := by
    rw [tag_parseSelector, parseTag_eq, hs]
    by_cases hmem : '>' ∈ t.toList
    · rw [lastSegment_append_of_mem (List.mem_append_left b hmem),
        lastSegment_append_of_not_mem (hbehind '>' (by decide)), h.headTag]
      simp [hmem]
    · rw [← List.append_assoc, lastSegment_of_not_mem, h.headTag, hhead]
      · simp [hmem]
      · have hbefore := h.before '>' (by decide)
        have hafter := hbehind '>' (by decide)
        simp [hbefore, hmem, hafter]
  have hattributes : (∀ c ∈ t.toList, noneOf "'\")" c = true) →
      ((parseSelector s).attributes = [] ↔ ∀ u, u <:+ t.toList → ¬ OpensAttribute u) := by
    intro hclean
    rw [attributes_parseSelector, parseAttributes_eq_nil_iff, hs]
    refine search_attr_eq_none_iff (h.before '[' (by decide)) ?_ (hbehind '[' (by decide))
      (hbehind ']' (by decide))
    rintro c hc (rfl | rfl)
    · exact absurd (hclean _ hc) (by decide)
    · exact absurd (hclean _ hc) (by decide)
  constructor
  · intro hread
    have hclean := htext.mp hread.text
    exact ⟨hclean, hid.mp hread.elementId, hclass.mp hread.classes,
      (hattributes hclean).mp hread.attributes, htag.mp hread.tag⟩
  · intro hplain
    exact ⟨htext.mpr hplain.text, hid.mpr hplain.elementId, hclass.mpr hplain.classes,
      (hattributes hplain.text).mpr hplain.attributes, htag.mpr hplain.tag⟩

theorem headTag_text (s : List Char) : headTag ("text=".toList ++ s) = none := by
  have hletters : ∀ c ∈ "ext".toList, isClassChar c = true := by
    have halpha : ∀ c ∈ "ext".toList, c.isAlpha = true := forall_mem_of_all (by decide)
    exact fun c hc => (isClassChar_of_isAlpha (halpha c hc)).2
  have hlower : lower "text" = "text" := lower_ascii_eq (by decide) (by decide)
  have hword : headTag "text".toList = none := by
    show (leadingWord ('t' :: "ext".toList)).bind wordTag = none
    have hrun := takeWhile_run (s := []) hletters nofun
    rw [List.append_nil] at hrun
    rw [leadingWord_cons, if_pos (by decide), hrun]
    show wordTag "text".toList = none
    unfold wordTag
    rw [String.ofList_toList, if_pos (Or.inl hlower)]
  have hbarrier := headTag_barrier (b := '=') (by decide) (by decide) (mark_not_name (by decide)).1
    "text".toList s
  exact hbarrier.trans hword

theorem onlyText_equals_iff [LawfulUnicode] {t : String} (hne : t.toList ≠ []) :
    OnlyText (parseSelector ("text=" ++ t)) t ↔ PlainText t := by
  refine onlyText_iff (a := "text=".toList) (b := []) ⟨forall_mem_of_all (by decide), Or.inl rfl⟩ ?_
    (headTag_text t.toList) fun hclean => ?_
  · rw [String.toList_append, List.append_nil]
  · rw [String.toList_append]
    exact search_of_matchAt (matchAt_text_equals hne hclean)

theorem onlyText_hasText_iff [LawfulUnicode] {t : String} (hne : t.toList ≠ []) :
    OnlyText (parseSelector (":has-text(\"" ++ t ++ "\")")) t ↔ PlainText t := by
  have hchars : (":has-text(\"" ++ t ++ "\")").toList =
      ":has-text(\"".toList ++ (t.toList ++ ['"', ')']) := by
    rw [String.toList_append, String.toList_append, List.append_assoc]
    rfl
  refine onlyText_iff (b := ['"', ')']) ⟨forall_mem_of_all (by decide), Or.inr rfl⟩ hchars (by rfl) fun hclean => ?_
  have hfirst : matchAt textRe (":has-text(\"".toList ++ (t.toList ++ ['"', ')'])) = none :=
    matchAt_text_start (by decide) _
  have hsecond := search_of_matchAt (matchAt_text_hasText hne hclean)
  have hskip : ":has-text(\"".toList ++ (t.toList ++ ['"', ')']) =
      ':' :: ("has-text(".toList ++ '"' :: (t.toList ++ ['"', ')'])) := rfl
  rw [hchars]
  rw [hskip] at hfirst ⊢
  unfold search
  rw [hfirst]
  exact hsecond

end

end AegisPlatform.Healing
