import AegisPlatform.Foundations.PyText

/-! # Backtracking regular expressions

The part of Python's `re` whose repetitions are over one character class: a class, `[…]*`,
`(…)?`, sequence, alternative and capturing group, matched leftmost first and greedily, with
backtracking into every earlier choice. Captured text is kept by group number.
-/

namespace AegisPlatform.Foundations
set_option autoImplicit false
set_option maxHeartbeats 250000

inductive Regex
  | eps
  | one (p : Char → Bool)
  | many (p : Char → Bool)
  | opt (r : Regex)
  | seq (r q : Regex)
  | alt (r q : Regex)
  | group (n : ℕ) (r : Regex)

namespace Regex

abbrev Captures := List (ℕ × List Char)

/-- `[p]*` followed by what `k` accepts: the longest run of `p` first, then ever shorter ones. -/
def runMany {α : Type} (p : Char → Bool) : List Char → (List Char → Option α) → Option α
  | [], k => k []
  | c :: s, k => if p c then (runMany p s k).orElse fun _ => k (c :: s) else k (c :: s)

/-- Match `r` at the head of `s` and go on with `k` on what is left, backtracking when `k` fails. -/
def run {α : Type} : Regex → List Char → Captures → (List Char → Captures → Option α) → Option α
  | eps, s, caps, k => k s caps
  | one _, [], _, _ => none
  | one p, c :: s, caps, k => if p c then k s caps else none
  | many p, s, caps, k => runMany p s fun t => k t caps
  | opt r, s, caps, k => (run r s caps k).orElse fun _ => k s caps
  | seq r q, s, caps, k => run r s caps fun t caps' => run q t caps' k
  | alt r q, s, caps, k => (run r s caps k).orElse fun _ => run q s caps k
  | group n r, s, caps, k =>
      run r s caps fun t caps' => k t ((n, s.take (s.length - t.length)) :: caps')

/-- `re.match`: the captures of a match at the head of `s`, with the text after it. -/
def matchAt (r : Regex) (s : List Char) : Option (Captures × List Char) :=
  run r s [] fun t caps => some (caps, t)

/-- `re.search`: the captures of the leftmost match. -/
def search (r : Regex) : List Char → Option Captures
  | [] => (matchAt r []).map Prod.fst
  | c :: s =>
    match matchAt r (c :: s) with
    | some (caps, _) => some caps
    | none => search r s

/-- `re.finditer` of a pattern that matches no empty text: the captures of the matches from
left to right, each search starting where the last match ended. `skip` counts the characters
still inside the last match. -/
def findAll (r : Regex) (skip : ℕ) : List Char → List Captures
  | [] => []
  | c :: s =>
    match skip with
    | n + 1 => findAll r n s
    | 0 =>
      match matchAt r (c :: s) with
      | some (caps, rest) => caps :: findAll r (s.length - rest.length) s
      | none => findAll r 0 s

/-- The text of group `n`; `none` when the group took no part in the match. -/
def captured (caps : Captures) (n : ℕ) : Option String := (caps.lookup n).map String.ofList

/-! ## Shorthands -/

def lit (c : Char) : Regex := one (· == c)

/-- One character of `cs`. -/
def oneOf (cs : String) : Regex := one fun c => cs.toList.contains c

/-- One character not in `cs`. -/
def noneOf (cs : String) : Char → Bool := fun c => !cs.toList.contains c

/-- `[p]+`. -/
def some1 (p : Char → Bool) : Regex := seq (one p) (many p)

def literal (text : String) : Regex := text.toList.foldr (fun c r => seq (lit c) r) eps

end Regex

end AegisPlatform.Foundations
