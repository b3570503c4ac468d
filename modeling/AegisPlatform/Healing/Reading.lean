import AegisPlatform.Foundations.Matching
import AegisPlatform.Healing.Snapshot
import Mathlib.Data.List.Induction

/-! # How a selector is read

What the five patterns find in a selector that is a bare text followed by attributes, each pattern
in a closed form. The attributes are always found, if no value holds a quote or a `]`. All other
patterns also look into the values.
-/

namespace AegisPlatform.Healing
open Foundations Foundations.Regex
set_option autoImplicit false
set_option maxHeartbeats 250000

/-- The text of an attribute `[key="value"]`. -/
def attrChars (attr : String × String) : List Char :=
  '[' :: (attr.1.toList ++ '=' :: '"' :: (attr.2.toList ++ ['"', ']']))

theorem toList_attrSelector (key value : String) :
    (attrSelector key value).toList = attrChars (key, value) := by
  unfold attrSelector attrChars
  simp only [String.toList_append, List.append_assoc]
  rfl

/-- A name in the characters of `p`. -/
def IsName (p : Char → Bool) (s : String) : Prop := s.toList ≠ [] ∧ ∀ c ∈ s.toList, p c = true

/-- A value without quotes and without `]`. -/
def CleanValue (value : String) : Prop := ∀ c ∈ value.toList, noneOf "'\"]" c = true

instance (p : Char → Bool) (s : String) : Decidable (IsName p s) :=
  decidable_of_iff (s.toList ≠ [] ∧ s.toList.all p = true) (and_congr_right' List.all_eq_true)

instance (value : String) : Decidable (CleanValue value) :=
  decidable_of_iff (value.toList.all (noneOf "'\"]") = true) List.all_eq_true

/-- A text that holds nothing an attribute or a combinator is made of. -/
def Bare (s : List Char) : Prop := ∀ c ∈ s, c ∉ ['[', '=', '(', '>']

/-- The characters the patterns look for. -/
def marks : List Char := ['[', '=', '(', '>', '#', '.', '"', ']']

section
variable [Unicode]

theorem isClassChar_ascii {c : Char} (hc : c.toNat < 128) :
    isClassChar c = (c.isAlphanum || c == '_' || c == '-') := by
  unfold isClassChar isWord
  rw [Unicode.isAlnum_ascii c hc]

theorem isNameChar_ascii {c : Char} (hc : c.toNat < 128) :
    isNameChar c = (c.isAlphanum || c == '_' || c == ':' || c == '-') := by
  unfold isNameChar isWord
  rw [Unicode.isAlnum_ascii c hc]

/-- No mark stands in a class, an id or the key of an attribute. -/
theorem mark_not_name {c : Char} (h : c ∈ marks) :
    isClassChar c = false ∧ isNameChar c = false := by
  have hmarks : ∀ c ∈ marks, c.toNat < 128 ∧
      (c.isAlphanum || c == '_' || c == '-') = false ∧
      (c.isAlphanum || c == '_' || c == ':' || c == '-') = false :=
    forall_mem_of_all (by decide)
  obtain ⟨hascii, hclass, hname⟩ := hmarks c h
  rw [isClassChar_ascii hascii, isNameChar_ascii hascii]
  exact ⟨hclass, hname⟩

theorem isClassChar_bare {c : Char} (h : isClassChar c = true) : c ∉ marks := by
  intro hmem
  rw [(mark_not_name hmem).1] at h
  cases h

theorem isNameChar_bare {c : Char} (h : isNameChar c = true) : c ∉ marks := by
  intro hmem
  rw [(mark_not_name hmem).2] at h
  cases h

theorem tag_parseSelector (s : String) : (parseSelector s).tag = parseTag s.toList := by
  simp only [parseSelector]

theorem attributes_parseSelector (s : String) :
    (parseSelector s).attributes = parseAttributes s.toList := by
  simp only [parseSelector]

theorem text_parseSelector (s : String) :
    (parseSelector s).text = none ↔ search textRe s.toList = none := by
  unfold parseSelector
  exact Option.map_eq_none_iff

/-! ## Ids and classes -/

theorem elementId_parseSelector (s : String) : (parseSelector s).elementId =
    (runsAfter '#' isNameChar s.toList).head?.map String.ofList :=
  search_marker '#' isNameChar s.toList

theorem mem_classes_parseSelector (s c : String) :
    c ∈ (parseSelector s).classes ↔ c.toList ∈ runsAfter '.' isClassChar s.toList := by
  have hdot : isClassChar '.' = false := (mark_not_name (by decide)).1
  show c ∈ ((findAll classRe 0 s.toList).filterMap fun caps => captured caps 1).dedup ↔ _
  have hfind := findAll_marker hdot s.toList
  rw [List.mem_dedup, show classRe = marker '.' isClassChar from rfl, hfind, List.mem_map]
  constructor
  · rintro ⟨w, hw, rfl⟩
    rw [String.toList_ofList]
    exact hw
  · intro hc
    exact ⟨c.toList, hc, String.ofList_toList⟩

/-- The runs in a selector: those of the bare text, and those of the values. -/
theorem runsAfter_attrs {x : Char} {p : Char → Bool} (hx : isNameChar x = false)
    (hmark : x ∉ ['[', '=', '"', ']']) (hbarrier : ∀ b ∈ marks, p b = false)
    {attrs : List (String × String)} (hkeys : ∀ kv ∈ attrs, IsName isNameChar kv.1)
    (pre : List Char) :
    runsAfter x p (pre ++ attrs.flatMap attrChars) =
      runsAfter x p pre ++ attrs.flatMap fun kv => runsAfter x p kv.2.toList := by
  have hcut : ∀ b ∈ ['[', '=', '"', ']'], ∀ a s : List Char,
      runsAfter x p (a ++ b :: s) = runsAfter x p a ++ runsAfter x p s := by
    intro b hb a s
    refine runsAfter_barrier (fun hbx : b = x => hmark (hbx ▸ hb)) (hbarrier b ?_) a s
    simp only [List.mem_cons, List.not_mem_nil, or_false] at hb
    rcases hb with rfl | rfl | rfl | rfl <;> decide
  induction attrs generalizing pre with
  | nil => simp
  | cons kv attrs ih =>
    have hkey : runsAfter x p kv.1.toList = [] := by
      refine runsAfter_eq_nil fun hmem => ?_
      have hname := (hkeys kv List.mem_cons_self).2 x hmem
      rw [hx] at hname
      cases hname
    have hrest := ih (fun kv' hkv' => hkeys kv' (List.mem_cons_of_mem kv hkv')) []
    have htail : kv.2.toList ++ ['"', ']'] ++ attrs.flatMap attrChars =
        kv.2.toList ++ '"' :: ([] ++ ']' :: ([] ++ attrs.flatMap attrChars)) := by
      simp
    have htext : pre ++ (kv :: attrs).flatMap attrChars =
        pre ++ '[' :: (kv.1.toList ++ '=' :: ([] ++ '"' :: (kv.2.toList ++ ['"', ']'] ++
          attrs.flatMap attrChars))) := by
      simp [attrChars]
    rw [htext, htail, hcut _ (by simp), hcut _ (by simp), hcut _ (by simp), hcut _ (by simp),
      hcut _ (by simp), hrest, hkey, List.flatMap_cons]
    simp [runsAfter]

theorem ids_attrs {attrs : List (String × String)} (hkeys : ∀ kv ∈ attrs, IsName isNameChar kv.1)
    (pre : List Char) : runsAfter '#' isNameChar (pre ++ attrs.flatMap attrChars) =
      runsAfter '#' isNameChar pre ++
        attrs.flatMap fun kv => runsAfter '#' isNameChar kv.2.toList := by
  refine runsAfter_attrs (mark_not_name (by decide)).2 (by decide) ?_ hkeys pre
  exact fun b hb => (mark_not_name hb).2

theorem classes_attrs {attrs : List (String × String)}
    (hkeys : ∀ kv ∈ attrs, IsName isNameChar kv.1) (pre : List Char) :
    runsAfter '.' isClassChar (pre ++ attrs.flatMap attrChars) =
      runsAfter '.' isClassChar pre ++
        attrs.flatMap fun kv => runsAfter '.' isClassChar kv.2.toList := by
  refine runsAfter_attrs (mark_not_name (by decide)).2 (by decide) ?_ hkeys pre
  exact fun b hb => (mark_not_name hb).1

/-! ## Attributes -/

theorem matchAt_attr {kv : String × String} (hkey : IsName isNameChar kv.1)
    (hvalue : CleanValue kv.2) (rest : List Char) :
    matchAt attrRe (attrChars kv ++ rest) =
      some ([(2, kv.2.toList), (1, kv.1.toList)], rest) := by
  have hequals : ∀ c ∈ ('=' :: '"' :: (kv.2.toList ++ '"' :: ']' :: rest)).head?,
      isNameChar c = false :=
    forall_mem_head (mark_not_name (by decide)).2
  have htext : attrChars kv ++ rest =
      '[' :: (kv.1.toList ++ '=' :: '"' :: (kv.2.toList ++ '"' :: ']' :: rest)) := by
    simp [attrChars]
  rw [htext]
  unfold matchAt attrRe
  rw [run_seq]
  refine run_one (by decide) ?_
  rw [run_seq, run_group]
  refine run_some1 hkey.1 hkey.2 hequals ?_
  rw [take_matched, run_seq]
  refine run_many (a := []) (fun _ hc => absurd hc List.not_mem_nil)
    (forall_mem_head (by decide)) ?_
  rw [run_seq]
  refine run_opt ?_
  rw [run_seq]
  refine run_opt_skip (by decide) ?_
  rw [run_seq]
  refine run_one (by decide) ?_
  rw [run_seq]
  refine run_many (a := []) (fun _ hc => absurd hc List.not_mem_nil)
    (forall_mem_head (by decide)) ?_
  rw [run_seq]
  refine run_opt (run_one (by decide) ?_)
  rw [run_seq, run_group]
  refine run_many hvalue (forall_mem_head (by decide)) ?_
  rw [take_matched]
  refine run_opt (run_one (by decide) ?_)
  exact run_one (by decide) rfl

theorem matchAt_attr_none {c : Char} (hc : c ≠ '[') (s : List Char) :
    matchAt attrRe (c :: s) = none := by
  rw [matchAt_eq_none_iff]
  rintro t caps ⟨u, caps', ⟨d, heq, hd, -⟩, -⟩
  obtain ⟨rfl, -⟩ := List.cons.inj heq
  exact hc (eq_of_beq hd)

/-- A value an attribute is read with holds no quote and no `]`. -/
theorem matchAt_attr_clean {s t : List Char} {caps : Captures}
    (h : matchAt attrRe s = some (caps, t)) : CleanValue ((captured caps 2).getD "") := by
  have heats := matchAt_eats h
  obtain ⟨s₁, c₁, ⟨_, _, _, hc₁⟩, s₂, c₂, ⟨c₂', hkey, hc₂⟩, s₃, c₃, ⟨_, _, _, hc₃⟩, s₄, c₄,
    hoption, _, _, _, hc₄⟩ := heats
  obtain ⟨_, _, ⟨_, _, _, hc₅⟩, _, _, _, hc₆⟩ := hkey
  subst hc₁ hc₅ hc₆ hc₂ hc₃ hc₄
  rcases hoption with hvalue | ⟨_, hskip⟩
  · obtain ⟨_, c₅, _, _, c₆, ⟨_, _, _, hc₆⟩, _, c₇, ⟨_, _, _, hc₇⟩, s₈, c₈, _, s₉, c₉,
      ⟨c₉', ⟨a, ha, hclean, hc₉'⟩, hc₉⟩, hquote⟩ := hvalue
    have hcaps : caps = (2, a) :: c₈ := by
      rw [ha, take_matched, hc₉'] at hc₉
      rw [← hc₉]
      rcases hquote with ⟨_, _, _, hlast⟩ | ⟨_, hlast⟩
      · exact hlast
      · exact hlast
    rw [hcaps]
    unfold CleanValue captured
    rw [List.lookup_cons]
    simpa using hclean
  · subst hskip
    intro c hc
    simp only [captured, List.lookup_cons] at hc
    cases hc

/-- All attributes are read, and nothing else is read as one. -/
theorem parseAttributes_attrs {attrs : List (String × String)}
    (hkeys : ∀ kv ∈ attrs, IsName isNameChar kv.1) (hvalues : ∀ kv ∈ attrs, CleanValue kv.2)
    (hnodup : (attrs.map Prod.fst).Nodup) {pre : List Char} (hpre : '[' ∉ pre) :
    parseAttributes (pre ++ attrs.flatMap attrChars) = attrs := by
  have hskip : ∀ c ∈ pre, ∀ u, matchAt attrRe (c :: u) = none :=
    fun c hc u => matchAt_attr_none (fun heq => hpre (heq ▸ hc)) u
  have hfind : findAll attrRe 0 (attrs.flatMap attrChars) =
      attrs.map fun kv => [(2, kv.2.toList), (1, kv.1.toList)] := by
    clear hnodup
    induction attrs with
    | nil => rfl
    | cons kv attrs ih =>
      have hmatch := matchAt_attr (hkeys kv List.mem_cons_self) (hvalues kv List.mem_cons_self)
        (attrs.flatMap attrChars)
      rw [List.flatMap_cons, List.map_cons,
        ← ih (fun kv' hkv' => hkeys kv' (List.mem_cons_of_mem kv hkv'))
          (fun kv' hkv' => hvalues kv' (List.mem_cons_of_mem kv hkv'))]
      exact findAll_match hmatch
  unfold parseAttributes
  rw [findAll_append _ hskip, hfind, List.foldl_map]
  have hread : ∀ kv : String × String,
      (captured [(2, kv.2.toList), (1, kv.1.toList)] 1).getD "" = kv.1 ∧
        (captured [(2, kv.2.toList), (1, kv.1.toList)] 2).getD "" = kv.2 := by
    intro kv
    constructor
    · exact String.ofList_toList
    · exact String.ofList_toList
  simp only [hread]
  exact foldl_dictSet hnodup

theorem clean_parseAttributes (s : List Char) : ∀ kv ∈ parseAttributes s, CleanValue kv.2 := by
  have hall : ∀ caps ∈ findAll attrRe 0 s, CleanValue ((captured caps 2).getD "") := by
    intro caps hcaps
    obtain ⟨u, t, hmatch⟩ := mem_findAll hcaps
    exact matchAt_attr_clean hmatch
  unfold parseAttributes
  generalize findAll attrRe 0 s = found at hall
  refine List.foldlRecOn
    (motive := fun attributes : List (String × String) => ∀ kv ∈ attributes, CleanValue kv.2)
    found _ (fun kv hkv => absurd hkv List.not_mem_nil) ?_
  intro attributes hattributes caps hcaps kv hkv
  rcases mem_dictSet hkv with hold | rfl
  · exact hattributes kv hold
  · exact hall caps hcaps

end

/-! ## Text -/

def IsQuote (c : Char) : Prop := c = '\'' ∨ c = '"'

/-- What the text of an engine prefix stands behind. -/
inductive TextOpener : List Char → Prop
  | equals : TextOpener "text=".toList
  | hasText (q : Char) (hq : IsQuote q) : TextOpener ("has-text(".toList ++ [q])
  | textCall (s₁ s₂ : List Char) (q : Char) (hs₁ : ∀ c ∈ s₁, isSpace c = true)
      (hs₂ : ∀ c ∈ s₂, isSpace c = true) (hq : IsQuote q) :
      TextOpener ("text()".toList ++ s₁ ++ '=' :: s₂ ++ [q])

theorem isQuote_iff (c : Char) : "'\"".toList.contains c = true ↔ IsQuote c := by
  have hlist : "'\"".toList = ['\'', '"'] := rfl
  rw [hlist]
  simp [IsQuote]

theorem matchAt_text_eq_none_iff {u : List Char} : matchAt textRe u = none ↔
    ∀ o c z, TextOpener o → noneOf "'\")" c = true → u ≠ o ++ c :: z := by
  rw [matchAt_eq_none_iff]
  constructor
  · rintro h o c z hopener hc rfl
    have hgroup : ∀ caps, ∃ t caps', Eats (group 1 (some1 (noneOf "'\")"))) (c :: z) caps t caps' :=
      fun caps => ⟨z, _, caps, ⟨z, caps, ⟨c, rfl, hc, rfl⟩, [], rfl, by simp, rfl⟩, rfl⟩
    obtain ⟨t, caps', hgroup⟩ := hgroup []
    refine h t caps' ⟨c :: z, [], ?_, hgroup⟩
    cases hopener with
    | equals => exact Or.inl (eats_literal.mpr ⟨rfl, rfl⟩)
    | hasText q hq =>
      refine Or.inr (Or.inl ⟨q :: c :: z, [], eats_literal.mpr ⟨?_, rfl⟩, q, rfl, ?_, rfl⟩)
      · rw [List.append_assoc]
        rfl
      · exact (isQuote_iff q).mpr hq
    | textCall s₁ s₂ q hs₁ hs₂ hq =>
      refine Or.inr (Or.inr ⟨s₁ ++ '=' :: s₂ ++ q :: c :: z, [], eats_literal.mpr ⟨?_, rfl⟩,
        '=' :: s₂ ++ q :: c :: z, [], ⟨s₁, ?_, hs₁, rfl⟩, s₂ ++ q :: c :: z, [],
        ⟨'=', rfl, by decide, rfl⟩, q :: c :: z, [], ⟨s₂, rfl, hs₂, rfl⟩, q, rfl, ?_, rfl⟩)
      · simp
      · simp
      · exact (isQuote_iff q).mpr hq
  · rintro h t caps ⟨v, caps₁, hopener, caps₂, ⟨w, caps₃, ⟨c, rfl, hc, -⟩, -⟩, -⟩
    rcases hopener with hequals | ⟨w₁, caps₄, hhas, q, rfl, hq, -⟩ | ⟨w₁, caps₄, hcall, w₂, caps₅,
      ⟨s₁, rfl, hs₁, -⟩, w₃, caps₆, ⟨d, rfl, hd, -⟩, w₄, caps₇, ⟨s₂, rfl, hs₂, -⟩, q, rfl, hq, -⟩
    · obtain ⟨rfl, -⟩ := eats_literal.mp hequals
      exact h _ c w TextOpener.equals hc rfl
    · obtain ⟨rfl, -⟩ := eats_literal.mp hhas
      refine h _ c w (TextOpener.hasText q ((isQuote_iff q).mp hq)) hc ?_
      simp
    · obtain ⟨rfl, -⟩ := eats_literal.mp hcall
      obtain rfl := eq_of_beq hd
      refine h _ c w (TextOpener.textCall s₁ s₂ q hs₁ hs₂ ((isQuote_iff q).mp hq)) hc ?_
      simp

/-- What a value may not hold or end in: an engine prefix, whose quote is the one that closes the
value. -/
inductive OpensText : List Char → Prop
  | equals (c : Char) (b : List Char) (hc : c ≠ ')') : OpensText ("text=".toList ++ c :: b)
  | hasText : OpensText "has-text(".toList
  | textCall (s₁ s₂ : List Char) (hs₁ : ∀ c ∈ s₁, isSpace c = true)
      (hs₂ : ∀ c ∈ s₂, isSpace c = true) : OpensText ("text()".toList ++ s₁ ++ '=' :: s₂)

theorem OpensText.length {u : List Char} (h : OpensText u) : 6 ≤ u.length := by
  cases h with
  | equals c b => simp
  | hasText => decide
  | textCall s₁ s₂ =>
    simp only [List.length_append, List.length_cons]
    have hword : "text()".toList.length = 6 := rfl
    omega

/-- Nothing in the value is read as a text. -/
def TextFree (value : String) : Prop := ∀ u, u <:+ value.toList → ¬ OpensText u

theorem OpensText.mem {u : List Char} (h : OpensText u) : 't' ∈ u := by
  cases h with
  | equals c b => simp
  | hasText => decide
  | textCall s₁ s₂ => simp

theorem textFree_of_not_mem {value : String} (h : 't' ∉ value.toList) : TextFree value :=
  fun _ hu hopens => h (hu.subset hopens.mem)

theorem textFree_short {value : String} (h : value.toList.length < 6) : TextFree value := by
  intro u hu hopens
  have hlong := hopens.length
  have hshort := hu.length_le
  omega

theorem not_isQuote_of_isSpace {c : Char} (h : isSpace c = true) : ¬ IsQuote c := by
  rintro (rfl | rfl)
  · exact absurd h (by decide)
  · exact absurd h (by decide)

/-- An opener is a word of letters up to its first `=` or `(`. -/
theorem TextOpener.word {o : List Char} (h : TextOpener o) : ∃ w sep rest, o = w ++ sep :: rest ∧
    sep ∈ ['=', '('] ∧ (∀ c ∈ w, c ∈ "has-text".toList) ∧
    (sep = '=' → w = "text".toList ∧ rest = []) := by
  cases h with
  | equals =>
    exact ⟨"text".toList, '=', [], rfl, by decide, forall_mem_of_all (by decide),
      fun _ => ⟨rfl, rfl⟩⟩
  | hasText q hq =>
    exact ⟨"has-text".toList, '(', [q], rfl, by decide, forall_mem_of_all (by decide),
      fun h => absurd h (by decide)⟩
  | textCall s₁ s₂ q =>
    refine ⟨"text".toList, '(', ')' :: (s₁ ++ '=' :: s₂ ++ [q]), ?_, by decide,
      forall_mem_of_all (by decide), fun h => absurd h (by decide)⟩
    simp

theorem matchAt_text_start {c : Char} (hc : c ∉ ['t', 'h']) (s : List Char) :
    matchAt textRe (c :: s) = none := by
  rw [matchAt_text_eq_none_iff]
  intro o d z hopener _ heq
  refine hc ?_
  cases hopener with
  | equals => exact (List.cons.inj heq).1 ▸ List.mem_cons_self
  | hasText q => exact (List.cons.inj heq).1 ▸ List.mem_cons_of_mem _ List.mem_cons_self
  | textCall s₁ s₂ q => exact (List.cons.inj heq).1 ▸ List.mem_cons_self

/-- No text is read from a bare text on. -/
theorem matchAt_text_bare {u : List Char} (hu : ∀ c ∈ u, c ∉ ['=', '(']) {t : List Char}
    (ht : ∀ c ∈ t.head?, c ∉ "has-text".toList ∧ c ∉ ['=', '(']) (hne : u ≠ []) :
    matchAt textRe (u ++ t) = none := by
  rw [matchAt_text_eq_none_iff]
  intro o c z hopener hc heq
  obtain ⟨w, sep, rest, rfl, hsep, hword, -⟩ := hopener.word
  cases t with
  | nil =>
    refine hu sep ?_ hsep
    rw [List.append_nil] at heq
    rw [heq]
    simp
  | cons d t =>
    have hd := ht d rfl
    have hnot : d ∉ w ++ [sep] := by
      intro hmem
      rcases List.mem_append.mp hmem with hw | hs
      · exact hd.1 (hword d hw)
      · exact hd.2 (List.mem_singleton.mp hs ▸ hsep)
    have hsplit : u ++ d :: t = (w ++ [sep]) ++ (rest ++ c :: z) := by simpa using heq
    obtain ⟨m, rfl, -⟩ := cut_at hnot hsplit
    exact hu sep (by simp) hsep

/-- No text is read from a key on, whose value stands in quotes. -/
theorem matchAt_text_key {u : List Char} (hu : ∀ c ∈ u, c ∉ ['=', '(']) (t : List Char) :
    matchAt textRe (u ++ '=' :: '"' :: t) = none := by
  rw [matchAt_text_eq_none_iff]
  intro o c z hopener hc heq
  obtain ⟨w, sep, rest, rfl, hsep, hword, hequals⟩ := hopener.word
  have hnot : '=' ∉ w := fun hmem => absurd (hword '=' hmem) (by decide)
  have hsplit : u ++ '=' :: '"' :: t = w ++ (sep :: rest ++ c :: z) := by simpa using heq
  obtain ⟨m, rfl, hrest⟩ := cut_at hnot hsplit
  cases m with
  | nil =>
    obtain ⟨hsep', hrest⟩ := List.cons.inj hrest
    obtain ⟨-, rfl⟩ := hequals hsep'
    obtain ⟨rfl, -⟩ := List.cons.inj hrest
    exact absurd hc (by decide)
  | cons d m =>
    obtain ⟨rfl, -⟩ := List.cons.inj hrest
    exact hu sep (by simp) hsep

/-- From a place in a value on, a text is read exactly if an engine prefix stands there. -/
theorem matchAt_text_value {u : List Char} (hu : ∀ c ∈ u, ¬ IsQuote c) (t : List Char) :
    matchAt textRe (u ++ '"' :: ']' :: t) = none ↔ ¬ OpensText u := by
  rw [matchAt_text_eq_none_iff]
  constructor
  · intro h hopens
    cases hopens with
    | equals c b hc =>
      refine h _ c (b ++ '"' :: ']' :: t) TextOpener.equals ?_ (by simp)
      have hquote := hu c (by simp)
      rw [noneOf_iff]
      intro hmem
      have hlist : "'\")".toList = ['\'', '"', ')'] := rfl
      rw [hlist, List.mem_cons, List.mem_cons, List.mem_singleton] at hmem
      rcases hmem with h | h | h
      · exact hquote (Or.inl h)
      · exact hquote (Or.inr h)
      · exact hc h
    | hasText =>
      exact h _ ']' t (TextOpener.hasText '"' (Or.inr rfl)) (by decide) (by simp)
    | textCall s₁ s₂ hs₁ hs₂ =>
      exact h _ ']' t (TextOpener.textCall s₁ s₂ '"' hs₁ hs₂ (Or.inr rfl)) (by decide) (by simp)
  · intro hnot o c z hopener hc heq
    -- the quote of an opener is the one that closes the value
    have hclosing : ∀ w q, '"' ∉ w → IsQuote q → u ++ '"' :: ']' :: t = w ++ q :: c :: z →
        u = w := by
      intro w q hw hq hsplit
      obtain ⟨m, rfl, hrest⟩ := cut_at hw hsplit
      cases m with
      | nil => rw [List.append_nil]
      | cons d m =>
        obtain ⟨rfl, -⟩ := List.cons.inj hrest
        exact absurd hq (hu q (by simp))
    cases hopener with
    | equals =>
      obtain ⟨m, rfl, hrest⟩ := cut_at (by decide) heq
      cases m with
      | nil =>
        obtain ⟨rfl, -⟩ := List.cons.inj hrest
        exact absurd hc (by decide)
      | cons d m =>
        obtain ⟨rfl, -⟩ := List.cons.inj hrest
        refine hnot (OpensText.equals c m ?_)
        rintro rfl
        exact absurd hc (by decide)
    | hasText q hq =>
      have hu' := hclosing "has-text(".toList q (by decide) hq (by simpa using heq)
      exact hnot (hu' ▸ OpensText.hasText)
    | textCall s₁ s₂ q hs₁ hs₂ hq =>
      have hu' := hclosing ("text()".toList ++ s₁ ++ '=' :: s₂) q ?_ hq (by simpa using heq)
      · exact hnot (hu' ▸ OpensText.textCall s₁ s₂ hs₁ hs₂)
      · intro hmem
        have hspaces : ∀ s : List Char, (∀ c ∈ s, isSpace c = true) → '"' ∉ s :=
          fun s hs hquote => not_isQuote_of_isSpace (hs '"' hquote) (Or.inr rfl)
        rcases List.mem_append.mp hmem with hfirst | hsecond
        · rcases List.mem_append.mp hfirst with hword | hs
          · exact absurd hword (by decide)
          · exact hspaces s₁ hs₁ hs
        · rcases List.mem_cons.mp hsecond with heq | hs
          · exact absurd heq (by decide)
          · exact hspaces s₂ hs₂ hs

theorem CleanValue.quotes {value : String} (h : CleanValue value) :
    ∀ c ∈ value.toList, ¬ IsQuote c := by
  intro c hc hquote
  have hclean := noneOf_iff.mp (h c hc)
  rcases hquote with rfl | rfl
  · exact hclean (by decide)
  · exact hclean (by decide)

/-- No text is read from within a clean value on exactly if the value is free of them. -/
theorem matchAt_text_suffixes {value : String} (h : CleanValue value) (t : List Char) :
    (∀ u, u <:+ value.toList → u ≠ [] → matchAt textRe (u ++ '"' :: ']' :: t) = none) ↔
      TextFree value := by
  have hiff := fun u (hu : u <:+ value.toList) =>
    matchAt_text_value (fun c hc => h.quotes c (hu.mem hc)) t
  constructor
  · intro hall u hu hopens
    have hne : u ≠ [] := by
      rintro rfl
      cases hopens
    exact (hiff u hu).mp (hall u hu hne) hopens
  · exact fun hfree u hu _ => (hiff u hu).mpr (hfree u hu)

section
variable [Unicode]

theorem key_no_separator {key : String} (h : IsName isNameChar key) :
    ∀ c ∈ key.toList, c ∉ ['=', '('] := by
  intro c hc hsep
  have hname := isNameChar_bare (h.2 c hc)
  simp only [List.mem_cons, List.not_mem_nil, or_false] at hsep
  rcases hsep with rfl | rfl
  · exact hname (by decide)
  · exact hname (by decide)

/-- A text is found exactly if some value holds one. -/
theorem search_text_attrs {attrs : List (String × String)}
    (hkeys : ∀ kv ∈ attrs, IsName isNameChar kv.1) (hvalues : ∀ kv ∈ attrs, CleanValue kv.2)
    {pre : List Char} (hpre : ∀ c ∈ pre, c ∉ ['=', '(']) :
    search textRe (pre ++ attrs.flatMap attrChars) = none ↔ ∀ kv ∈ attrs, TextFree kv.2 := by
  have hsuffix : ∀ {u a : List Char}, (∀ c ∈ a, c ∉ ['=', '(']) → u <:+ a →
      ∀ c ∈ u, c ∉ ['=', '('] := fun ha hu c hc => ha c (hu.mem hc)
  induction attrs generalizing pre with
  | nil =>
    rw [List.flatMap_nil, search_append_eq_none_iff]
    constructor
    · exact fun _ kv hkv => absurd hkv List.not_mem_nil
    · intro _
      refine ⟨fun u hu hne => matchAt_text_bare (hsuffix hpre hu) ?_ hne, rfl⟩
      exact fun c hc => by cases hc
  | cons kv attrs ih =>
    have hrest : search textRe (attrs.flatMap attrChars) = none ↔ ∀ kv ∈ attrs, TextFree kv.2 :=
      @ih (fun kv' hkv' => hkeys kv' (List.mem_cons_of_mem kv hkv'))
        (fun kv' hkv' => hvalues kv' (List.mem_cons_of_mem kv hkv')) []
        (fun c hc => absurd hc List.not_mem_nil)
    have htext : pre ++ (kv :: attrs).flatMap attrChars =
        pre ++ '[' :: (kv.1.toList ++ '=' :: '"' :: (kv.2.toList ++ '"' :: ']' ::
          attrs.flatMap attrChars)) := by
      simp [attrChars]
    have hkey := key_no_separator (hkeys kv List.mem_cons_self)
    have hvalue := matchAt_text_suffixes (hvalues kv List.mem_cons_self) (attrs.flatMap attrChars)
    have hbare : ∀ u, u <:+ pre → u ≠ [] → ∀ s, matchAt textRe (u ++ '[' :: s) = none := by
      intro u hu hne s
      exact matchAt_text_bare (hsuffix hpre hu) (forall_mem_head (by decide)) hne
    have hkeyText := fun u (hu : u <:+ kv.1.toList) (_ : u ≠ []) =>
      matchAt_text_key (hsuffix hkey hu) (kv.2.toList ++ '"' :: ']' :: attrs.flatMap attrChars)
    rw [htext, search_append_eq_none_iff, search_cons_eq_none_iff, search_append_eq_none_iff,
      search_cons_eq_none_iff, search_cons_eq_none_iff, search_append_eq_none_iff,
      search_cons_eq_none_iff, search_cons_eq_none_iff, hvalue, hrest, List.forall_mem_cons]
    have hstarts : ∀ c ∈ ['[', '=', '"', ']'], ∀ s, matchAt textRe (c :: s) = none :=
      fun c hc s => matchAt_text_start (forall_mem_of_all (P := fun c => c ∉ ['t', 'h'])
        (by decide) c hc) s
    constructor
    · rintro ⟨-, -, -, -, -, hv, -, -, hr⟩
      exact ⟨hv, hr⟩
    · rintro ⟨hv, hr⟩
      exact ⟨fun u hu hne => hbare u hu hne _, hstarts _ (by simp) _, hkeyText,
        hstarts _ (by simp) _, hstarts _ (by simp) _, hv, hstarts _ (by simp) _,
        hstarts _ (by simp) _, hr⟩

/-! ## Tags -/

/-- The word a text begins with, if it begins with a letter of ASCII. -/
def leadingWord : List Char → Option (List Char)
  | [] => none
  | c :: s => if c.isAlpha then some (c :: s.takeWhile isClassChar) else none

theorem leadingWord_cons (c : Char) (s : List Char) : leadingWord (c :: s) =
    if c.isAlpha then some (c :: s.takeWhile isClassChar) else none := rfl

/-- A word as a tag: lower-cased, and no engine prefix. -/
def wordTag (w : List Char) : Option String :=
  if lower (String.ofList w) = "text" ∨ lower (String.ofList w) = "has" then none
  else some (lower (String.ofList w))

/-- The tag a text begins with, after white space. -/
def headTag (s : List Char) : Option String := (leadingWord (s.dropWhile isSpace)).bind wordTag

theorem matchAt_tag_run {c : Char} {a t : List Char} (hc : c.isAlpha = true)
    (ha : ∀ c ∈ a, isClassChar c = true) (ht : ∀ c ∈ t.head?, isClassChar c = false) :
    matchAt tagRe (c :: (a ++ t)) = some ([(1, c :: a)], t) := by
  unfold matchAt tagRe
  rw [run_group, run_seq]
  refine run_one hc ?_
  refine run_many ha ht ?_
  have htake := take_matched (c :: a) t
  rw [List.cons_append] at htake
  rw [htake]

theorem matchAt_tag (s : List Char) :
    (matchAt tagRe s).map Prod.fst = (leadingWord s).map fun w => [(1, w)] := by
  cases s with
  | nil => rfl
  | cons c s =>
    rw [leadingWord_cons]
    by_cases hc : c.isAlpha = true
    · have hmatch := matchAt_tag_run (a := s.takeWhile isClassChar) (t := s.dropWhile isClassChar)
        hc (fun d hd => List.mem_takeWhile_imp hd) fun d hd => head?_dropWhile hd
      rw [List.takeWhile_append_dropWhile] at hmatch
      rw [if_pos hc, hmatch]
      rfl
    · rw [if_neg hc, Option.map_none, Option.map_eq_none_iff, matchAt_eq_none_iff]
      rintro t caps ⟨caps', ⟨u, caps'', ⟨d, heq, hd, -⟩, -⟩, -⟩
      obtain ⟨rfl, -⟩ := List.cons.inj heq
      exact hc hd

theorem parseTag_leadingWord (s : List Char) :
    parseTag s = (leadingWord (strip (lastSegment '>' (strip s)))).bind wordTag := by
  unfold parseTag
  have hmatch := matchAt_tag (strip (lastSegment '>' (strip s)))
  dsimp only
  cases hfound : matchAt tagRe (strip (lastSegment '>' (strip s))) with
  | none =>
    rw [hfound, Option.map_none, eq_comm, Option.map_eq_none_iff] at hmatch
    rw [hmatch]
    rfl
  | some found =>
    obtain ⟨caps, t⟩ := found
    rw [hfound, Option.map_some, eq_comm, Option.map_eq_some_iff] at hmatch
    obtain ⟨w, hw, rfl⟩ := hmatch
    rw [hw]
    rfl

/-- What follows a leading word does not change it. -/
theorem leadingWord_append {s t : List Char}
    (ht : ∀ c ∈ t.head?, c.isAlpha = false ∧ isClassChar c = false) :
    leadingWord (s ++ t) = leadingWord s := by
  cases t with
  | nil => rw [List.append_nil]
  | cons b t =>
    obtain ⟨halpha, hclass⟩ := ht b rfl
    cases s with
    | nil =>
      show leadingWord (b :: t) = none
      rw [leadingWord_cons, halpha]
      rfl
    | cons c s =>
      rw [List.cons_append, leadingWord_cons, leadingWord_cons, takeWhile_barrier hclass]

theorem headTag_spaces {a : List Char} (ha : ∀ c ∈ a, isSpace c = true) (s : List Char) :
    headTag (a ++ s) = headTag s := by
  unfold headTag
  rw [List.dropWhile_append_of_pos ha]

/-- What follows behind a character outside of words and white space does not change the tag. -/
theorem headTag_barrier {b : Char} (hspace : isSpace b = false) (halpha : b.isAlpha = false)
    (hclass : isClassChar b = false) (s t : List Char) : headTag (s ++ b :: t) = headTag s := by
  have hdrop : (s ++ b :: t).dropWhile isSpace = s.dropWhile isSpace ++ b :: t := by
    rw [List.dropWhile_append]
    split
    · next hnil =>
      rw [List.isEmpty_iff.mp hnil, List.dropWhile_cons, hspace]
      rfl
    · rfl
  unfold headTag
  rw [hdrop, leadingWord_append (forall_mem_head ⟨halpha, hclass⟩)]

theorem isClassChar_of_isAlpha {c : Char} (h : c.isAlpha = true) :
    c.toNat < 128 ∧ isClassChar c = true := by
  have hascii : c.toNat < 128 := by
    unfold Char.isAlpha Char.isUpper Char.isLower at h
    simp only [Bool.or_eq_true, Bool.and_eq_true, decide_eq_true_eq, UInt32.le_iff_toNat_le] at h
    have hval : c.toNat = c.val.toNat := rfl
    have hupper : ('Z' : Char).val.toNat = 90 := rfl
    have hlower : ('z' : Char).val.toNat = 122 := rfl
    omega
  refine ⟨hascii, ?_⟩
  rw [isClassChar_ascii hascii]
  unfold Char.isAlphanum
  rw [h]
  rfl

section
variable [LawfulUnicode]

theorem not_class_of_isSpace {c : Char} (h : isSpace c = true) :
    c.isAlpha = false ∧ isClassChar c = false := by
  have hclass : isClassChar c = false := by
    unfold isClassChar
    rw [Bool.or_eq_false_iff]
    constructor
    · by_contra hword
      rw [Bool.not_eq_false] at hword
      rw [LawfulUnicode.word_not_space c hword] at h
      cases h
    · rw [beq_eq_false_iff_ne]
      rintro rfl
      exact absurd h (by decide)
  refine ⟨?_, hclass⟩
  by_contra halpha
  rw [Bool.not_eq_false] at halpha
  rw [(isClassChar_of_isAlpha halpha).2] at hclass
  cases hclass

theorem headTag_append_spaces {b : List Char} (hb : ∀ c ∈ b, isSpace c = true) (s : List Char) :
    headTag (s ++ b) = headTag s := by
  cases b with
  | nil => rw [List.append_nil]
  | cons c b =>
    unfold headTag
    rw [List.dropWhile_append]
    split
    · next hnil =>
      have hall : ((c :: b) ++ []).dropWhile isSpace = [].dropWhile isSpace :=
        List.dropWhile_append_of_pos hb
      rw [List.append_nil, List.dropWhile_nil] at hall
      rw [List.isEmpty_iff.mp hnil, hall]
    · rw [leadingWord_append (forall_mem_head (not_class_of_isSpace (hb c List.mem_cons_self)))]

/-- The tag is what the text behind the last `>` begins with. -/
theorem parseTag_eq (s : List Char) : parseTag s = headTag (lastSegment '>' s) := by
  have hhead : ∀ u : List Char, (leadingWord (strip u)).bind wordTag = headTag u := by
    intro u
    obtain ⟨-, b, -, -, hb, hdrop⟩ := strip_split u
    unfold headTag
    rw [hdrop, leadingWord_append]
    intro c hc
    exact not_class_of_isSpace (hb c (List.mem_of_head? hc))
  obtain ⟨a, b, hsplit, ha, hb, -⟩ := strip_split s
  have hnot : ∀ t : List Char, (∀ c ∈ t, isSpace c = true) → '>' ∉ t :=
    fun t ht hmem => absurd (ht '>' hmem) (by decide)
  rw [parseTag_leadingWord, hhead]
  generalize strip s = m at hsplit
  rw [hsplit, lastSegment_append_of_not_mem (hnot b hb), headTag_append_spaces hb]
  by_cases hmem : '>' ∈ m
  · rw [lastSegment_append_of_mem hmem]
  · have hnone : '>' ∉ a ++ m := fun h => (List.mem_append.mp h).elim (hnot a ha) hmem
    rw [lastSegment_of_not_mem hmem, lastSegment_of_not_mem hnone, headTag_spaces ha]

/-- The part of a selector its tag is read from: what the last value with a `>` has behind it, or
else the bare text. -/
def tagText (pre : List Char) (attrs : List (String × String)) : List Char :=
  match (attrs.filter fun kv => decide ('>' ∈ kv.2.toList)).getLast? with
  | some kv => lastSegment '>' kv.2.toList
  | none => pre

omit [LawfulUnicode] in
theorem headTag_attrs {attrs : List (String × String)}
    (hkeys : ∀ kv ∈ attrs, IsName isNameChar kv.1) {pre : List Char} (hpre : '>' ∉ pre) :
    headTag (lastSegment '>' (pre ++ attrs.flatMap attrChars)) = headTag (tagText pre attrs) := by
  have hcut : ∀ b ∈ ['[', '"'], ∀ a s : List Char, headTag (a ++ b :: s) = headTag a := by
    intro b hb a s
    simp only [List.mem_cons, List.not_mem_nil, or_false] at hb
    rcases hb with rfl | rfl
    · exact headTag_barrier (by decide) (by decide) (mark_not_name (by decide)).1 a s
    · exact headTag_barrier (by decide) (by decide) (mark_not_name (by decide)).1 a s
  induction attrs using List.reverseRecOn with
  | nil =>
    rw [List.flatMap_nil, List.append_nil, lastSegment_of_not_mem hpre]
    rfl
  | append_singleton attrs kv ih =>
    have hkey : '>' ∉ kv.1.toList := fun hmem =>
      isNameChar_bare ((hkeys kv (by simp)).2 '>' hmem) (by decide)
    have hrest := ih fun kv' hkv' => hkeys kv' (List.mem_append_left [kv] hkv')
    have htext : pre ++ (attrs ++ [kv]).flatMap attrChars =
        pre ++ attrs.flatMap attrChars ++ attrChars kv := by
      simp
    unfold tagText
    rw [htext, List.filter_append]
    by_cases hmem : '>' ∈ kv.2.toList
    · have hfilter : [kv].filter (fun kv => decide ('>' ∈ kv.2.toList)) = [kv] := by
        simp [hmem]
      have hvalue : pre ++ attrs.flatMap attrChars ++ attrChars kv =
          (pre ++ attrs.flatMap attrChars ++ '[' :: kv.1.toList ++ ['=', '"']) ++
            (kv.2.toList ++ ['"', ']']) := by
        simp [attrChars]
      rw [hfilter, List.getLast?_concat, hvalue, lastSegment_append_of_mem
        (List.mem_append_left _ hmem), lastSegment_append_of_not_mem (by decide)]
      exact hcut '"' (by simp) _ _
    · have hfilter : [kv].filter (fun kv => decide ('>' ∈ kv.2.toList)) = [] := by
        simp [hmem]
      have hchars : '>' ∉ attrChars kv := by
        simp [attrChars, hkey, hmem]
      rw [hfilter, List.append_nil, lastSegment_append_of_not_mem hchars]
      exact (hcut '[' (by simp) _ _).trans hrest

/-! ## The whole selector -/

/-- A selector is read as these parts and no text; the classes form a set. -/
structure Reads (s : String) (tag elementId : Option String) (classes : List String)
    (attributes : List (String × String)) : Prop where
  tag : (parseSelector s).tag = tag
  elementId : (parseSelector s).elementId = elementId
  classes : ∀ c, c ∈ (parseSelector s).classes ↔ c ∈ classes
  attributes : (parseSelector s).attributes = attributes
  text : (parseSelector s).text = none

theorem reads_attrs_iff {s : String} {pre : List Char} {attrs : List (String × String)}
    (hs : s.toList = pre ++ attrs.flatMap attrChars) (hpre : Bare pre)
    (hkeys : ∀ kv ∈ attrs, IsName isNameChar kv.1) (hvalues : ∀ kv ∈ attrs, CleanValue kv.2)
    (hnodup : (attrs.map Prod.fst).Nodup) (tag elementId : Option String)
    (classes : List String) :
    Reads s tag elementId classes attrs ↔
      headTag (tagText pre attrs) = tag ∧
      (runsAfter '#' isNameChar pre ++ attrs.flatMap fun kv =>
        runsAfter '#' isNameChar kv.2.toList).head?.map String.ofList = elementId ∧
      (∀ c : String, c.toList ∈ runsAfter '.' isClassChar pre ++ (attrs.flatMap fun kv =>
        runsAfter '.' isClassChar kv.2.toList) ↔ c ∈ classes) ∧
      ∀ kv ∈ attrs, TextFree kv.2 := by
  have htag : (parseSelector s).tag = headTag (tagText pre attrs) := by
    rw [tag_parseSelector, parseTag_eq, hs, headTag_attrs hkeys fun hmem => hpre _ hmem (by decide)]
  have hid := elementId_parseSelector s
  rw [hs, ids_attrs hkeys] at hid
  have hclass := mem_classes_parseSelector s
  rw [hs, classes_attrs hkeys] at hclass
  have hattributes : (parseSelector s).attributes = attrs := by
    rw [attributes_parseSelector, hs]
    exact parseAttributes_attrs hkeys hvalues hnodup fun hmem => hpre _ hmem (by decide)
  have htext : (parseSelector s).text = none ↔ ∀ kv ∈ attrs, TextFree kv.2 := by
    have hbare : ∀ c ∈ pre, c ∉ ['=', '('] := by
      intro c hc hsep
      refine hpre c hc ?_
      simp only [List.mem_cons, List.not_mem_nil, or_false] at hsep ⊢
      rcases hsep with h | h
      · exact Or.inr (Or.inl h)
      · exact Or.inr (Or.inr (Or.inl h))
    rw [← search_text_attrs hkeys hvalues hbare, ← hs]
    exact text_parseSelector s
  constructor
  · intro h
    refine ⟨htag.symm.trans h.tag, hid.symm.trans h.elementId, ?_, htext.mp h.text⟩
    exact fun c => (hclass c).symm.trans (h.classes c)
  · rintro ⟨ht, hi, hc, hfree⟩
    exact
      { tag := htag.trans ht
        elementId := hid.trans hi
        classes := fun c => (hclass c).trans (hc c)
        attributes := hattributes
        text := htext.mpr hfree }

end

end

end AegisPlatform.Healing
