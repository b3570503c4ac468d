import AegisPlatform.Healing.Dom

/-! # The DOM snapshot

`healing/dom.py`, the half that reads pages: `DomElement`, `to_selector` and `parse_dom`. The HTML
parser is outside the source: it turns a page into its tags in document order, or raises.
-/

namespace AegisPlatform.Healing
open Foundations
set_option autoImplicit false
set_option maxHeartbeats 250000

/-- BeautifulSoup gives the multi-valued attributes, such as `class`, as lists. -/
inductive AttrValue
  | single (value : String)
  | multi (values : List String)
deriving DecidableEq

def AttrValue.joined : AttrValue → String
  | single value => value
  | multi values => " ".intercalate values

-- `raw_id if isinstance(raw_id, str) else None`
def stringOnly : Option AttrValue → Option String
  | some (.single value) => some value
  | some (.multi _) => none
  | none => none

-- `raw_classes if isinstance(raw_classes, list) else []`
def listOnly : Option AttrValue → List String
  | some (.multi values) => values
  | some (.single _) => []
  | none => []

/-- A tag of the soup, with its stripped text. -/
structure Tag where
  name : String
  attrs : List (String × AttrValue)
  text : String
deriving DecidableEq

/-- The attributes as strings. -/
def Tag.joinedAttrs (tag : Tag) : List (String × String) :=
  tag.attrs.map fun (key, value) => (key, value.joined)

/-- `BeautifulSoup(html, "lxml").find_all(True)`. -/
abbrev HtmlParser := String → Except String (List Tag)

structure DomElement where
  tag : String
  elementId : Option String
  classes : List String
  attributes : List (String × String)
  text : String
deriving DecidableEq

def otherAttrs : List String := ["name", "aria-label", "placeholder", "role", "type"]

/-- The first of `keys` that is present, with its value. -/
def firstPresent (keys : List String) (attributes : List (String × String)) :
    Option (String × String) :=
  keys.findSome? fun key => (attributes.lookup key).map fun value => (key, value)

theorem firstPresent_mem {keys : List String} {attributes : List (String × String)}
    {key value : String} (h : firstPresent keys attributes = some (key, value)) : key ∈ keys := by
  obtain ⟨key', hkey, hvalue⟩ := List.exists_of_findSome?_eq_some h
  obtain ⟨value', -, heq⟩ := Option.map_eq_some_iff.mp hvalue
  obtain ⟨rfl, -⟩ := Prod.mk.inj heq
  exact hkey

def DomElement.testId (e : DomElement) : Option String :=
  testIdKeys.findSome? fun key => e.attributes.lookup key

def attrSelector (key value : String) : String := "[" ++ key ++ "=\"" ++ value ++ "\"]"

theorem attrSelector_inj {key value value' : String}
    (h : attrSelector key value = attrSelector key value') : value = value' := by
  have hlist := congrArg String.toList h
  unfold attrSelector at hlist
  simp only [String.toList_append, List.append_assoc] at hlist
  have hvalue := List.append_cancel_left (List.append_cancel_left (List.append_cancel_left hlist))
  exact String.toList_inj.mp (List.append_cancel_right hvalue)

def DomElement.toSelector (e : DomElement) : String :=
  match firstPresent testIdKeys e.attributes with
  | some (key, testId) => attrSelector key testId
  | none =>
    if truthy e.elementId then "#" ++ e.elementId.getD ""
    else if e.classes ≠ [] then e.tag ++ String.join ((e.classes.take 3).map fun c => "." ++ c)
    else
      match firstPresent otherAttrs e.attributes with
      | some (attr, value) => e.tag ++ attrSelector attr value
      | none => e.tag

/-- How long `to_selector` is. -/
def DomElement.printedLength (e : DomElement) : ℕ :=
  match firstPresent testIdKeys e.attributes with
  | some (key, testId) => key.length + testId.length + 5
  | none =>
    if truthy e.elementId then (e.elementId.getD "").length + 1
    else if e.classes ≠ [] then
      e.tag.length + ((e.classes.take 3).map fun c => c.length + 1).foldr (· + ·) 0
    else
      match firstPresent otherAttrs e.attributes with
      | some (attr, value) => e.tag.length + attr.length + value.length + 5
      | none => e.tag.length

theorem length_attrSelector (key value : String) :
    (attrSelector key value).length = key.length + value.length + 5 := by
  unfold attrSelector
  simp only [String.length_append]
  have hopen : "[".length = 1 := rfl
  have hequals : "=\"".length = 2 := rfl
  have hclose : "\"]".length = 2 := rfl
  omega

theorem length_toSelector (e : DomElement) : e.toSelector.length = e.printedLength := by
  have hdot : ".".length = 1 := rfl
  have hhash : "#".length = 1 := rfl
  unfold DomElement.toSelector DomElement.printedLength
  cases firstPresent testIdKeys e.attributes with
  | some kv => exact length_attrSelector kv.1 kv.2
  | none =>
    dsimp only
    split
    · rw [String.length_append, hhash, Nat.add_comm]
    · split
      · have hclass : String.length ∘ (fun c => "." ++ c) = fun c => c.length + 1 := by
          funext c
          rw [Function.comp_apply, String.length_append, hdot, Nat.add_comm]
        rw [String.length_append, String.length_join, List.map_map, hclass, List.sum_eq_foldr]
      · cases firstPresent otherAttrs e.attributes with
        | none => rfl
        | some kv =>
          dsimp only
          rw [String.length_append, length_attrSelector]
          omega

def interactable : List String := ["a", "button", "input", "select", "textarea", "label", "option"]

def identifyingAttrs : List String :=
  ["id", "data-testid", "data-test-id", "data-test", "data-qa", "name", "aria-label", "role",
    "placeholder"]

section
variable [Unicode]

/-- The element of a tag; `none` for a layout container that carries no identifying signal. -/
def candidate (tag : Tag) : Option DomElement :=
  let name := lower tag.name
  let attrs := tag.joinedAttrs
  if name ∉ interactable ∧ ∀ key ∈ identifyingAttrs, attrs.lookup key = none then none
  else some
    { tag := name
      elementId := stringOnly (tag.attrs.lookup "id")
      classes := listOnly (tag.attrs.lookup "class")
      attributes := attrs
      text := String.ofList (tag.text.toList.take 160) }

def parseDom (findAll : HtmlParser) (html : String) : Except String (List DomElement) :=
  (findAll html).map fun tags => tags.filterMap candidate

end

end AegisPlatform.Healing
