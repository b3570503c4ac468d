import AegisPlatform.Foundations.Regex
import Mathlib.Data.List.Dedup

/-! # Selector hints

`healing/dom.py`, the half that reads selectors: the five patterns, `SelectorHints` and
`parse_selector`.
-/

namespace AegisPlatform.Healing
open Foundations Foundations.Regex
set_option autoImplicit false
set_option maxHeartbeats 250000

section
variable [Unicode]

/-- The class `[\w:-]`. -/
def isNameChar (c : Char) : Bool := isWord c || c == ':' || c == '-'

/-- The class `[\w-]`. -/
def isClassChar (c : Char) : Bool := isWord c || c == '-'

/-- `\[([\w:-]+)\s*(?:[*^$|~]?=\s*['"]?([^'"\]]*)['"]?)?\]` -/
def attrRe : Regex :=
  seq (lit '[') <| seq (group 1 (some1 isNameChar)) <| seq (many isSpace) <|
    seq (opt (seq (opt (oneOf "*^$|~")) <| seq (lit '=') <| seq (many isSpace) <|
      seq (opt (oneOf "'\"")) <| seq (group 2 (many (noneOf "'\"]"))) (opt (oneOf "'\"")))) <|
    lit ']'

/-- `#([\w:-]+)` -/
def idRe : Regex := seq (lit '#') (group 1 (some1 isNameChar))

/-- `\.([\w-]+)` -/
def classRe : Regex := seq (lit '.') (group 1 (some1 isClassChar))

/-- `^([a-zA-Z][\w-]*)`, only ever used with `match`. -/
def tagRe : Regex := group 1 (seq (one Char.isAlpha) (many isClassChar))

/-- `(?:text=|has-text\(['"]|text\(\)\s*=\s*['"])([^'")]+)` -/
def textRe : Regex :=
  seq (alt (literal "text=") <| alt (seq (literal "has-text(") (oneOf "'\"")) <|
      seq (literal "text()") <| seq (many isSpace) <| seq (lit '=') <| seq (many isSpace)
        (oneOf "'\"")) <|
    group 1 (some1 (noneOf "'\")"))

end

/-- Structured signal extracted from a selector string. -/
structure SelectorHints where
  tag : Option String := none
  elementId : Option String := none
  classes : List String := []
  attributes : List (String × String) := []
  text : Option String := none
  classes_nodup : classes.Nodup := by decide
deriving DecidableEq, Repr

def testIdKeys : List String := ["data-testid", "data-test-id", "data-test", "data-qa"]

/-- The property `test_id`: the value of the first alias present. -/
def SelectorHints.testId (hints : SelectorHints) : Option String :=
  testIdKeys.findSome? fun key => hints.attributes.lookup key

section
variable [Unicode]

/-- `hints.attributes` after all matches of `_ATTR_RE`; a missing value is `""`. -/
def parseAttributes (selector : List Char) : List (String × String) :=
  (findAll attrRe 0 selector).foldl
    (fun attributes caps =>
      dictSet attributes ((captured caps 1).getD "") ((captured caps 2).getD "")) []

/-- The tag of the last `>` segment, lower-cased; `text` and `has` are engine prefixes. -/
def parseTag (selector : List Char) : Option String :=
  let head := strip (lastSegment '>' (strip selector))
  match matchAt tagRe head with
  | none => none
  | some (caps, _) =>
    let tag := lower ((captured caps 1).getD "")
    if tag = "text" ∨ tag = "has" then none else some tag

/-- `parse_selector`. -/
def parseSelector (selector : String) : SelectorHints :=
  let s := selector.toList
  { text := (search textRe s).map fun caps =>
      String.ofList (strip (((captured caps 1).getD "").toList))
    attributes := parseAttributes s
    elementId := (search idRe s).bind fun caps => captured caps 1
    classes := ((findAll classRe 0 s).filterMap fun caps => captured caps 1).dedup
    tag := parseTag s
    classes_nodup := List.nodup_dedup _ }

end

end AegisPlatform.Healing
