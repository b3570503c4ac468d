import AegisPlatform.Healing.Compound

/-! # Chains of compound selectors

Compound selectors joined by the combinators of CSS. The tag of a chain is read behind its last `>`;
the other combinators do not count, and a `>` in the argument of a pseudo-class does, so the
compound it is read from need not be the last one.
-/

namespace AegisPlatform.Healing
open Foundations Foundations.Regex
set_option autoImplicit false
set_option maxHeartbeats 250000

inductive Combinator
  | descendant
  | child
  | nextSibling
  | subsequentSibling
deriving DecidableEq

def Combinator.chars : Combinator → List Char
  | .descendant => []
  | .child => ['>']
  | .nextSibling => ['+']
  | .subsequentSibling => ['~']

def combinatorChars : List Char := [' ', '>', '+', '~']

/-- A combinator with the white space around it. -/
structure Joint where
  op : Combinator
  before : List Char
  after : List Char
  before_ok : ∀ c ∈ before, isSpace c = true
  after_ok : ∀ c ∈ after, isSpace c = true
  apart : op = .descendant → before ≠ []

def Joint.chars (j : Joint) : List Char := j.before ++ (j.op.chars ++ j.after)

/-- What may follow the tag of a compound selector. -/
inductive Part
  | universal
  | elementId (name : String)
  | cls (name : String)
  | attr (key operator value : String)
  | pseudo (name : String) (argument : Option String)

def argumentChars : Option String → List Char
  | none => []
  | some arg => '(' :: (arg.toList ++ [')'])

def Part.chars : Part → List Char
  | .universal => ['*']
  | .elementId name => '#' :: name.toList
  | .cls name => '.' :: name.toList
  | .attr key operator value => '[' :: (key.toList ++ (operator.toList ++ (value.toList ++ [']'])))
  | .pseudo name argument => ':' :: (name.toList ++ argumentChars argument)

def Part.argument : Part → Option String
  | .pseudo _ argument => argument
  | _ => none

/-- The last argument with a `>`. -/
def lastArgument : List Part → Option String
  | [] => none
  | p :: parts => match lastArgument parts with
    | some arg => some arg
    | none => p.argument.filter fun arg => decide ('>' ∈ arg.toList)

section
variable [Unicode]

/-- A value is written with its quotes, and holds no combinator. The argument of a pseudo-class is
any text. -/
def Part.Ok : Part → Prop
  | .universal => True
  | .elementId name => IsName isNameChar name
  | .cls name => IsName isClassChar name
  | .attr key operator value => IsName isNameChar key ∧
      (∀ c ∈ operator.toList, c ∈ "*^$|~=".toList) ∧ ∀ c ∈ value.toList, c ∉ combinatorChars
  | .pseudo name _ => IsName isNameChar name

/-- A word that can be a tag, in any case. -/
def IsTagWord (w : String) : Prop :=
  ∃ c s, w.toList = c :: s ∧ c.isAlpha = true ∧ ∀ d ∈ s, isClassChar d = true

structure Compound where
  tag : Option String
  parts : List Part
  tag_ok : ∀ w ∈ tag, IsTagWord w
  parts_ok : ∀ p ∈ parts, p.Ok
  nonempty : tag = none → parts ≠ []

namespace Compound

def chars (c : Compound) : List Char := (c.tag.getD "").toList ++ c.parts.flatMap Part.chars

/-- What the parser makes of the tag of a compound. -/
def hint (c : Compound) : Option String :=
  match lastArgument c.parts with
  | some arg => headTag (lastSegment '>' arg.toList)
  | none => c.tag.bind fun w => wordTag w.toList

end Compound

/-- Compound selectors, the later ones behind their combinators. -/
structure Chain where
  first : Compound
  rest : List (Joint × Compound)

/-- There is a `>` in front of the compound or in it. -/
def behindChild (jc : Joint × Compound) : Bool :=
  jc.1.op == .child || (lastArgument jc.2.parts).isSome

namespace Chain

def tailChars (rest : List (Joint × Compound)) : List Char :=
  rest.flatMap fun jc => jc.1.chars ++ jc.2.chars

def print (chain : Chain) : String :=
  String.ofList (chain.first.chars ++ tailChars chain.rest)

/-- The last compound. -/
def target (chain : Chain) : Compound := (chain.rest.map Prod.snd).getLastD chain.first

/-- The compound the tag is read from. -/
def head (chain : Chain) : Compound :=
  ((chain.rest.filter behindChild).map Prod.snd).getLastD chain.first

/-- The tag of the compound the tag is read from is that of the last one; where the last `>` stands
in an argument, the text behind it takes the place of the tag. -/
def Aimed (chain : Chain) : Prop :=
  match lastArgument chain.head.parts with
  | some arg => headTag (lastSegment '>' arg.toList) = chain.target.tag.map lower
  | none => (chain.head.tag.map lower).filter (fun t => decide (t ∉ ["text", "has"])) =
      chain.target.tag.map lower

end Chain

/-! ## Reading a compound -/

/-- A part does not go on with a word, and is no white space. -/
theorem Part.head (p : Part) : ∀ c ∈ p.chars.head?,
    isSpace c = false ∧ c.isAlpha = false ∧ isClassChar c = false := by
  have hstarts : ∀ c ∈ ['*', '#', '.', '[', ':'], isSpace c = false ∧ c.isAlpha = false ∧
      c.toNat < 128 ∧ (c.isAlphanum || c == '_' || c == '-') = false :=
    forall_mem_of_all (by decide)
  have hall : ∀ c ∈ ['*', '#', '.', '[', ':'],
      isSpace c = false ∧ c.isAlpha = false ∧ isClassChar c = false := by
    intro c hc
    obtain ⟨hspace, halpha, hascii, hclass⟩ := hstarts c hc
    rw [isClassChar_ascii hascii]
    exact ⟨hspace, halpha, hclass⟩
  intro c hc
  apply hall
  cases p with
  | universal => exact Option.some.inj hc ▸ by simp
  | elementId name => exact Option.some.inj hc ▸ by simp
  | cls name => exact Option.some.inj hc ▸ by simp
  | attr key operator value => exact Option.some.inj hc ▸ by simp
  | pseudo name argument => exact Option.some.inj hc ▸ by simp

omit [Unicode] in
theorem Part.chars_ne_nil (p : Part) : p.chars ≠ [] := by
  cases p with
  | universal => exact List.cons_ne_nil _ _
  | elementId name => exact List.cons_ne_nil _ _
  | cls name => exact List.cons_ne_nil _ _
  | attr key operator value => exact List.cons_ne_nil _ _
  | pseudo name argument => exact List.cons_ne_nil _ _

theorem IsName.no_child {name : String} (h : IsName isNameChar name) : '>' ∉ name.toList :=
  fun hmem => isNameChar_bare (h.2 _ hmem) (by decide)

/-- Only arguments hold a `>`. -/
theorem Part.child_iff {p : Part} (h : p.Ok) :
    '>' ∈ p.chars ↔ ∃ arg ∈ p.argument, '>' ∈ arg.toList := by
  cases p with
  | universal =>
    refine iff_of_false (by decide) ?_
    rintro ⟨arg, ⟨⟩, -⟩
  | elementId name =>
    refine iff_of_false (by simp [Part.chars, IsName.no_child h]) ?_
    rintro ⟨arg, ⟨⟩, -⟩
  | cls name =>
    have hnot : '>' ∉ name.toList := fun hmem => isClassChar_bare (h.2 _ hmem) (by decide)
    refine iff_of_false (by simp [Part.chars, hnot]) ?_
    rintro ⟨arg, ⟨⟩, -⟩
  | attr key operator value =>
    obtain ⟨hkey, hoperator, hvalue⟩ := h
    have hnot : '>' ∉ operator.toList := fun hmem => absurd (hoperator _ hmem) (by decide)
    have hnot' : '>' ∉ value.toList := fun hmem => hvalue _ hmem (by decide)
    refine iff_of_false (by simp [Part.chars, IsName.no_child hkey, hnot, hnot']) ?_
    rintro ⟨arg, ⟨⟩, -⟩
  | pseudo name argument =>
    have hname : '>' ∉ name.toList := IsName.no_child h
    cases argument with
    | none => simp [Part.chars, Part.argument, argumentChars, hname]
    | some arg => simp [Part.chars, Part.argument, argumentChars, hname]

/-- Behind the last `>` of parts with one stands the rest of an argument. -/
theorem headTag_parts {parts : List Part} (h : ∀ p ∈ parts, p.Ok) {s : List Char} (hs : '>' ∉ s)
    (pre : List Char) :
    match lastArgument parts with
    | some arg => headTag (lastSegment '>' (pre ++ (parts.flatMap Part.chars ++ s))) =
        headTag (lastSegment '>' arg.toList)
    | none => '>' ∉ parts.flatMap Part.chars := by
  induction parts generalizing pre with
  | nil => exact List.not_mem_nil
  | cons p parts ih =>
    have hparts := fun q hq => h q (List.mem_cons_of_mem p hq)
    have hrest := ih hparts (pre ++ p.chars)
    have hp := Part.child_iff (h p List.mem_cons_self)
    unfold lastArgument
    rw [List.flatMap_cons]
    cases hlast : lastArgument parts with
    | some arg =>
      rw [hlast] at hrest
      rw [List.append_assoc, ← List.append_assoc pre]
      exact hrest
    | none =>
      rw [hlast] at hrest
      cases harg : p.argument.filter fun arg => decide ('>' ∈ arg.toList) with
      | none =>
        intro hmem
        rcases List.mem_append.mp hmem with hmem | hmem
        · obtain ⟨arg, harg', hchild⟩ := hp.mp hmem
          rw [harg', Option.filter_some, decide_eq_true hchild] at harg
          cases harg
        · exact hrest hmem
      | some arg =>
        obtain ⟨hpseudo, hchild⟩ := Option.filter_eq_some_iff.mp harg
        have hbehind : '>' ∉ ')' :: (parts.flatMap Part.chars ++ s) := by
          simp [hrest, hs]
        cases p with
        | pseudo name argument =>
          obtain rfl : argument = some arg := hpseudo
          have hsplit : pre ++ (Part.chars (.pseudo name (some arg)) ++ parts.flatMap Part.chars ++ s) =
              (pre ++ ':' :: (name.toList ++ ['('])) ++
                (arg.toList ++ ')' :: (parts.flatMap Part.chars ++ s)) := by
            simp [Part.chars, argumentChars]
          show headTag (lastSegment '>' _) = _
          rw [hsplit, lastSegment_append_of_mem (List.mem_append_left _ (of_decide_eq_true hchild)),
            lastSegment_append_of_not_mem hbehind]
          refine headTag_barrier (by decide) (by decide) ?_ _ _
          rw [isClassChar_ascii (by decide)]
          decide
        | _ => cases hpseudo

namespace Compound

variable (c : Compound)

theorem tag_no_child : '>' ∉ (c.tag.getD "").toList := by
  intro hmem
  cases htag : c.tag with
  | none =>
    rw [htag] at hmem
    cases hmem
  | some w =>
    rw [htag] at hmem
    obtain ⟨d, s, hlist, halpha, hs⟩ := c.tag_ok w htag
    change '>' ∈ w.toList at hmem
    rw [hlist] at hmem
    rcases List.mem_cons.mp hmem with rfl | hmem
    · exact absurd halpha (by decide)
    · exact isClassChar_bare (hs _ hmem) (by decide)

theorem no_child (h : lastArgument c.parts = none) : '>' ∉ c.chars := by
  have hparts := headTag_parts c.parts_ok (s := []) List.not_mem_nil []
  rw [h] at hparts
  intro hmem
  rcases List.mem_append.mp hmem with hmem | hmem
  · exact c.tag_no_child hmem
  · exact hparts hmem

theorem head_parts {s : List Char} (hs : ∀ d ∈ s.head?, d.isAlpha = false ∧ isClassChar d = false) :
    ∀ d ∈ (c.parts.flatMap Part.chars ++ s).head?, d.isAlpha = false ∧ isClassChar d = false := by
  cases c.parts with
  | nil => exact hs
  | cons p parts =>
    intro d hd
    have hhead : d ∈ p.chars.head? := by
      rw [List.flatMap_cons, List.append_assoc, List.head?_append_of_ne_nil _ p.chars_ne_nil] at hd
      exact hd
    exact (p.head d hhead).2

/-- A compound is read as its own tag, whatever follows but a word. -/
theorem headTag_chars [LawfulUnicode] (h : lastArgument c.parts = none) {s : List Char}
    (hs : ∀ d ∈ s.head?, d.isAlpha = false ∧ isClassChar d = false) :
    headTag (c.chars ++ s) = c.hint := by
  have hparts := c.head_parts hs
  unfold chars hint
  rw [h, List.append_assoc]
  show _ = c.tag.bind fun w => wordTag w.toList
  cases htag : c.tag with
  | some w =>
    obtain ⟨d, r, hlist, halpha, hr⟩ := c.tag_ok w htag
    rw [Option.getD_some, hlist, headTag_word halpha hr fun e he => (hparts e he).2,
      Option.bind_some, hlist]
  | none =>
    cases hlist : c.parts with
    | nil => exact absurd hlist (c.nonempty htag)
    | cons p parts =>
      refine headTag_none fun d hd => ?_
      have hhead : d ∈ p.chars.head? := by
        rw [Option.getD_none, List.flatMap_cons, List.append_assoc] at hd
        rwa [← List.head?_append_of_ne_nil _ p.chars_ne_nil]
      exact ⟨(p.head d hhead).1, (p.head d hhead).2.1⟩

theorem headTag_argument (h : (lastArgument c.parts).isSome = true) {s : List Char} (hs : '>' ∉ s)
    (pre : List Char) : headTag (lastSegment '>' (pre ++ (c.chars ++ s))) = c.hint := by
  have hparts := headTag_parts c.parts_ok hs (pre ++ (c.tag.getD "").toList)
  obtain ⟨arg, harg⟩ := Option.isSome_iff_exists.mp h
  rw [harg] at hparts
  unfold chars hint
  rw [harg, List.append_assoc, ← List.append_assoc pre]
  exact hparts

/-- A compound behind a `>`, or at the start of a selector, and no further `>` that is not in it. -/
theorem headTag_behind [LawfulUnicode] {s : List Char} (hs : '>' ∉ s)
    (hhead : ∀ d ∈ s.head?, d.isAlpha = false ∧ isClassChar d = false) {a : List Char}
    (ha : ∀ d ∈ a, isSpace d = true) :
    headTag (lastSegment '>' (a ++ (c.chars ++ s))) = c.hint := by
  have hspace : '>' ∉ a := fun hmem => absurd (ha '>' hmem) (by decide)
  cases hlast : lastArgument c.parts with
  | some arg => exact c.headTag_argument (hlast ▸ rfl) hs a
  | none =>
    have hnone : '>' ∉ a ++ (c.chars ++ s) := by simp [hspace, c.no_child hlast, hs]
    rw [lastSegment_of_not_mem hnone, headTag_spaces ha, c.headTag_chars hlast hhead]

end Compound

/-! ## Reading a chain -/

omit [Unicode] in
theorem Joint.child_iff (j : Joint) : '>' ∈ j.chars ↔ j.op = .child := by
  have hspace : ∀ s : List Char, (∀ c ∈ s, isSpace c = true) → '>' ∉ s :=
    fun s hs hmem => absurd (hs '>' hmem) (by decide)
  unfold chars
  rw [List.mem_append, List.mem_append]
  simp only [hspace _ j.before_ok, hspace _ j.after_ok, false_or, or_false]
  cases j.op with
  | descendant => decide
  | child => decide
  | nextSibling => decide
  | subsequentSibling => decide

theorem Joint.head [LawfulUnicode] (j : Joint) (s : List Char) :
    ∀ d ∈ (j.chars ++ s).head?, d.isAlpha = false ∧ isClassChar d = false := by
  have hops : ∀ d ∈ ['>', '+', '~'], d.toNat < 128 ∧ d.isAlpha = false ∧
      (d.isAlphanum || d == '_' || d == '-') = false := forall_mem_of_all (by decide)
  have hop : ∀ d ∈ ['>', '+', '~'], d.isAlpha = false ∧ isClassChar d = false := by
    intro d hd
    obtain ⟨hascii, halpha, hclass⟩ := hops d hd
    rw [isClassChar_ascii hascii]
    exact ⟨halpha, hclass⟩
  intro d hd
  unfold chars at hd
  cases hbefore : j.before with
  | cons e before =>
    rw [hbefore] at hd
    exact not_class_of_isSpace (j.before_ok d (hbefore ▸ List.mem_of_head? hd))
  | nil =>
    apply hop
    rw [hbefore] at hd
    cases hj : j.op with
    | descendant => exact absurd hbefore (j.apart hj)
    | child => exact Option.some.inj (hj ▸ hd) ▸ by simp
    | nextSibling => exact Option.some.inj (hj ▸ hd) ▸ by simp
    | subsequentSibling => exact Option.some.inj (hj ▸ hd) ▸ by simp

namespace Chain

theorem behindChild_eq_false {jc : Joint × Compound} (h : behindChild jc = false) :
    jc.1.op ≠ .child ∧ lastArgument jc.2.parts = none := by
  unfold behindChild at h
  rw [Bool.or_eq_false_iff, beq_eq_false_iff_ne, Option.isSome_eq_false_iff,
    Option.isNone_iff_eq_none] at h
  exact h

/-- The tag is read from the last compound behind a `>`. -/
theorem headTag_tailChars [LawfulUnicode] (first : Compound) (rest : List (Joint × Compound))
    {s : List Char} (hs : '>' ∉ s) (hhead : ∀ d ∈ s.head?, d.isAlpha = false ∧ isClassChar d = false) :
    headTag (lastSegment '>' (first.chars ++ (tailChars rest ++ s))) =
      (((rest.filter behindChild).map Prod.snd).getLastD first).hint := by
  induction rest using List.reverseRecOn generalizing s with
  | nil => exact first.headTag_behind hs hhead (a := []) fun d hd => absurd hd List.not_mem_nil
  | append_singleton rest jc ih =>
    obtain ⟨j, c⟩ := jc
    have hsplit : tailChars (rest ++ [(j, c)]) ++ s = tailChars rest ++ (j.chars ++ (c.chars ++ s)) := by
      simp [tailChars]
    rw [hsplit]
    cases hbehind : behindChild (j, c) with
    | true =>
      rw [List.filter_append, List.filter_singleton, hbehind, cond_true, List.map_append]
      show _ = ((List.map Prod.snd _ ++ [c]).getLastD first).hint
      rw [List.getLastD_concat]
      rcases Bool.or_eq_true_iff.mp hbehind with hchild | harg
      · have hcut : first.chars ++ (tailChars rest ++ (j.chars ++ (c.chars ++ s))) =
            (first.chars ++ (tailChars rest ++ j.before)) ++ '>' :: (j.after ++ (c.chars ++ s)) := by
          rw [Joint.chars, eq_of_beq hchild, Combinator.chars]
          simp
        rw [hcut, lastSegment_cut, c.headTag_behind hs hhead j.after_ok]
      · have hcut : first.chars ++ (tailChars rest ++ (j.chars ++ (c.chars ++ s))) =
            (first.chars ++ (tailChars rest ++ j.chars)) ++ (c.chars ++ s) := by
          simp
        rw [hcut, c.headTag_argument harg hs]
    | false =>
      obtain ⟨hop, hnone⟩ := behindChild_eq_false hbehind
      rw [List.filter_append, List.filter_singleton, hbehind, cond_false, List.append_nil]
      refine ih ?_ (j.head _)
      simp [j.child_iff, hop, c.no_child hnone, hs]

variable (chain : Chain)

theorem tag_eq [LawfulUnicode] : (parseSelector chain.print).tag = chain.head.hint := by
  have hread := headTag_tailChars chain.first chain.rest (s := []) List.not_mem_nil
    fun d hd => absurd hd (Option.not_mem_none d)
  rw [List.append_nil] at hread
  rw [tag_parseSelector, parseTag_eq, print, String.toList_ofList, hread, head]

/-- The tag of a chain is that of its last compound exactly if it is read from there, or from one
with the same tag. -/
theorem target_iff [LawfulUnicode] :
    (parseSelector chain.print).tag = chain.target.tag.map lower ↔ chain.Aimed := by
  rw [tag_eq]
  unfold Compound.hint Aimed
  cases lastArgument chain.head.parts with
  | some arg => exact Iff.rfl
  | none =>
    show (chain.head.tag.bind fun w => wordTag w.toList) = _ ↔ Option.filter _ _ = _
    cases chain.head.tag with
    | none => exact Iff.rfl
    | some w =>
      have hfilter : (some (lower w)).filter (fun t => decide (t ∉ ["text", "has"])) =
          wordTag w.toList := by
        unfold wordTag
        rw [String.ofList_toList, Option.filter_some]
        by_cases hengine : lower w = "text" ∨ lower w = "has"
        · rw [if_pos hengine, if_neg (by simpa using or_iff_not_imp_left.mp hengine)]
        · rw [if_neg hengine, if_pos (by simpa using hengine)]
      rw [Option.map_some, hfilter, Option.bind_some]

end Chain

end

def spaceJoint : Joint :=
  { op := .descendant
    before := [' ']
    after := []
    before_ok := forall_mem_of_all (by decide)
    after_ok := nofun
    apart := fun _ => List.cons_ne_nil _ _ }

def arrowJoint : Joint :=
  { op := .child
    before := [' ']
    after := [' ']
    before_ok := forall_mem_of_all (by decide)
    after_ok := forall_mem_of_all (by decide)
    apart := nofun }

def tagWithClasses [Unicode] (w : String) (classes : List String) (hw : IsTagWord w)
    (hclasses : ∀ c ∈ classes, IsName isClassChar c) : Compound where
  tag := some w
  parts := classes.map .cls
  tag_ok := fun _ hv => Option.some.inj hv ▸ hw
  parts_ok := fun _ hp => by
    obtain ⟨c, hc, rfl⟩ := List.mem_map.mp hp
    exact hclasses c hc
  nonempty := nofun

def bareTag [Unicode] (w : String) (hw : IsTagWord w) : Compound :=
  tagWithClasses w [] hw fun _ hc => absurd hc List.not_mem_nil

theorem tag_words : ∀ w ∈ ["div", "a", "span"], @IsTagWord asciiUnicode w := by
  let _ : Unicode := asciiUnicode
  have hword : ∀ (w : String) (c : Char) (s : List Char), w.toList = c :: s → c.isAlpha = true →
      s.all isClassChar = true → IsTagWord w :=
    fun w c s hlist halpha hs => ⟨c, s, hlist, halpha, List.all_eq_true.mp hs⟩
  intro w hw
  simp only [List.mem_cons, List.not_mem_nil, or_false] at hw
  rcases hw with rfl | rfl | rfl
  · exact hword "div" 'd' "iv".toList rfl (by decide) (by decide)
  · exact hword "a" 'a' [] rfl (by decide) (by decide)
  · exact hword "span" 's' "pan".toList rfl (by decide) (by decide)

theorem class_words : let _ : Unicode := asciiUnicode
    ∀ c ∈ ["container", "link"], IsName isClassChar c := by
  intro _
  decide

/-- The chain `div.container > a.link`. -/
def containerLink : @Chain asciiUnicode :=
  let _ : Unicode := asciiUnicode
  { first := tagWithClasses "div" ["container"] (tag_words "div" (by simp))
      fun c hc => class_words c (List.mem_cons.mpr (Or.inl (List.mem_singleton.mp hc)))
    rest := [(arrowJoint, tagWithClasses "a" ["link"] (tag_words "a" (by simp))
      fun c hc => class_words c (List.mem_cons_of_mem "container" hc))] }

theorem containerLink_target :
    let _ : Unicode := asciiUnicode
    containerLink.print = "div.container > a.link" ∧
      (parseSelector containerLink.print).tag = containerLink.target.tag.map lower ∧
      containerLink.target.tag = some "a" := by
  intro _
  refine ⟨by decide, (@Chain.target_iff asciiUnicode containerLink asciiUnicode_lawful).mpr ?_, rfl⟩
  show Option.filter _ _ = _
  decide

/-- The chain `div span`. -/
def divSpan : @Chain asciiUnicode :=
  let _ : Unicode := asciiUnicode
  { first := bareTag "div" (tag_words "div" (by simp))
    rest := [(spaceJoint, bareTag "span" (tag_words "span" (by simp)))] }

/-- Behind a space the tag of the last compound is not looked for. -/
theorem divSpan_counterexample :
    let _ : Unicode := asciiUnicode
    divSpan.print = "div span" ∧ divSpan.target.tag = some "span" ∧
      (parseSelector "div span").tag = some "div" ∧
      (parseSelector divSpan.print).tag ≠ divSpan.target.tag.map lower := by
  intro _
  have hprint : divSpan.print = "div span" := by decide
  have htag : (parseSelector "div span").tag = some "div" := by decide +kernel
  refine ⟨hprint, rfl, htag, ?_⟩
  rw [hprint, htag]
  decide

end AegisPlatform.Healing
