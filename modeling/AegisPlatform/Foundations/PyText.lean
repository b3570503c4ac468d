import Mathlib.Data.List.Basic
import Mathlib.Data.List.TakeWhile

/-! # Python strings, sets and dictionaries

What the source uses of `str`, `set` and `dict`, on Lean's strings and lists. A Python string is
a sequence of code points, as Lean's is. The full Unicode tables are not needed: `Unicode`
carries the two functions that consult them, with their documented behaviour on ASCII. A set of
strings is a list without duplicates, a dictionary a list of pairs in insertion order.
-/

namespace AegisPlatform.Foundations
set_option autoImplicit false
set_option maxHeartbeats 250000

/-- The Unicode data behind `str.isalnum` (and so `\w`) and `str.lower`. -/
class Unicode where
  isAlnum : Char → Bool
  isAlnum_ascii : ∀ c : Char, c.toNat < 128 → isAlnum c = c.isAlphanum
  lower : List Char → List Char
  lower_ascii : ∀ s : List Char, (∀ c ∈ s, c.toNat < 128) → lower s = s.map Char.toLower

/-- The Unicode data of a text without letters or digits beyond ASCII. -/
@[reducible] def asciiUnicode : Unicode where
  isAlnum := Char.isAlphanum
  isAlnum_ascii := fun _ _ => rfl
  lower := fun s => s.map Char.toLower
  lower_ascii := fun _ _ => rfl

/-- `str.lower()`. -/
def lower [Unicode] (s : String) : String := String.ofList (Unicode.lower s.toList)

/-- The class `\w` of `re`. -/
def isWord [Unicode] (c : Char) : Bool := Unicode.isAlnum c || c == '_'

/-- `str.isspace` and the class `\s` of `re`. -/
def isSpace (c : Char) : Bool :=
  let n := c.toNat
  (0x09 ≤ n && n ≤ 0x0d) || (0x1c ≤ n && n ≤ 0x20) || n == 0x85 || n == 0xa0 || n == 0x1680 ||
    (0x2000 ≤ n && n ≤ 0x200a) || n == 0x2028 || n == 0x2029 || n == 0x202f || n == 0x205f ||
    n == 0x3000

/-- A check of every character of a text, as it can be computed. -/
theorem forall_mem_of_all {α : Type} {P : α → Prop} [DecidablePred P] {l : List α}
    (h : (l.all fun a => decide (P a)) = true) : ∀ a ∈ l, P a :=
  fun a ha => of_decide_eq_true (List.all_eq_true.mp h a ha)

theorem lower_ascii_eq [Unicode] {s : String}
    (hascii : (s.toList.all fun c => decide (c.toNat < 128)) = true)
    (hlower : s.toList.map Char.toLower = s.toList) : lower s = s := by
  unfold lower
  rw [Unicode.lower_ascii s.toList (forall_mem_of_all hascii), hlower, String.ofList_toList]

/-- What the head of a text that begins with `a` is like. -/
theorem forall_mem_head {α : Type} {P : α → Prop} {a : α} {s : List α} (h : P a) :
    ∀ b ∈ (a :: s).head?, P b :=
  fun _ hb => Option.some.inj hb ▸ h

/-- What more the tables promise: no word character is white space, and `str.lower` brings in
neither white space nor punctuation of ASCII and prolongs no text it begins with. -/
class LawfulUnicode [Unicode] : Prop where
  word_not_space : ∀ c : Char, isWord c = true → isSpace c = false
  mem_lower : ∀ s : List Char, ∀ c ∈ Unicode.lower s,
    c ∈ s ∨ isSpace c = false ∧ (c.toNat < 128 → c.isAlphanum = true)
  lower_prefix : ∀ s t : List Char, Unicode.lower s = s ++ t → t = []

theorem not_isSpace_of_isAlphanum {c : Char} (h : c.isAlphanum = true) : isSpace c = false := by
  have hval : c.toNat = c.val.toNat := rfl
  unfold Char.isAlphanum Char.isAlpha Char.isUpper Char.isLower Char.isDigit at h
  simp only [Bool.or_eq_true, Bool.and_eq_true, decide_eq_true_eq, ge_iff_le,
    UInt32.le_iff_toNat_le] at h
  have hbounds : ('A' : Char).val.toNat = 65 ∧ ('Z' : Char).val.toNat = 90 ∧
      ('a' : Char).val.toNat = 97 ∧ ('z' : Char).val.toNat = 122 ∧
      ('0' : Char).val.toNat = 48 ∧ ('9' : Char).val.toNat = 57 := ⟨rfl, rfl, rfl, rfl, rfl, rfl⟩
  unfold isSpace
  simp only [Bool.or_eq_false_iff, Bool.and_eq_false_iff, decide_eq_false_iff_not,
    beq_eq_false_iff_ne]
  omega

/-- `Char.toLower` moves the capitals of ASCII only. -/
theorem toLower_cases (c : Char) :
    c.toLower = c ∨ ∃ n, 65 ≤ n ∧ n < 91 ∧ c = Char.ofNat n := by
  by_cases hupper : c.val ≥ 'A'.val ∧ c.val ≤ 'Z'.val
  · have hbounds : 65 ≤ c.toNat ∧ c.toNat ≤ 90 := by
      rw [ge_iff_le, UInt32.le_iff_toNat_le, UInt32.le_iff_toNat_le] at hupper
      exact hupper
    exact Or.inr ⟨c.toNat, hbounds.1, by omega, (Char.ofNat_toNat c).symm⟩
  · exact Or.inl (dif_neg hupper)

theorem toLower_toLower (c : Char) : c.toLower.toLower = c.toLower := by
  have hletters : ∀ n < 91, 65 ≤ n →
      (Char.ofNat n).toLower.toLower = (Char.ofNat n).toLower := by decide
  rcases toLower_cases c with hsame | ⟨n, hlow, hhigh, rfl⟩
  · rw [hsame, hsame]
  · exact hletters n hhigh hlow

theorem asciiUnicode_lawful : @LawfulUnicode asciiUnicode := by
  refine @LawfulUnicode.mk asciiUnicode ?_ ?_ ?_
  · intro c hword
    have hchar : c.isAlphanum = true ∨ c = '_' := by
      unfold isWord at hword
      rw [Bool.or_eq_true, beq_iff_eq] at hword
      exact hword
    rcases hchar with halnum | rfl
    · exact not_isSpace_of_isAlphanum halnum
    · decide
  · intro s c hc
    obtain ⟨d, hd, rfl⟩ := List.mem_map.mp hc
    have hletters : ∀ n < 91, 65 ≤ n → (Char.ofNat n).toLower.isAlphanum = true := by decide
    rcases toLower_cases d with hsame | ⟨n, hlow, hhigh, rfl⟩
    · rw [hsame]
      exact Or.inl hd
    · have halnum := hletters n hhigh hlow
      exact Or.inr ⟨not_isSpace_of_isAlphanum halnum, fun _ => halnum⟩
  · intro s t h
    have hlength := congrArg List.length h
    rw [List.length_append] at hlength
    have hmap : (s.map Char.toLower).length = s.length := List.length_map ..
    have hzero : t.length = 0 := by
      change (s.map Char.toLower).length = _ at hlength
      omega
    exact List.length_eq_zero_iff.mp hzero

/-- The tables lower no text twice. -/
class IdempotentLower [Unicode] : Prop where
  lower_lower : ∀ s : List Char, Unicode.lower (Unicode.lower s) = Unicode.lower s

theorem asciiUnicode_idempotent : @IdempotentLower asciiUnicode := by
  refine @IdempotentLower.mk asciiUnicode ?_
  intro s
  change (s.map Char.toLower).map Char.toLower = s.map Char.toLower
  rw [List.map_map]
  exact List.map_congr_left fun c _ => toLower_toLower c

theorem lower_lower [Unicode] [IdempotentLower] (s : String) : lower (lower s) = lower s := by
  unfold lower
  rw [String.toList_ofList, IdempotentLower.lower_lower]

/-- `str.strip()`. -/
def strip (s : List Char) : List Char :=
  ((s.dropWhile isSpace).reverse.dropWhile isSpace).reverse

/-- `s.split(sep)[-1]` for a one-character separator: what follows its last occurrence. -/
def lastSegment (sep : Char) (s : List Char) : List Char :=
  (s.reverse.takeWhile (· != sep)).reverse

theorem dropWhile_of_forall {p : Char → Bool} {text : List Char} (h : ∀ c ∈ text, p c = false) :
    text.dropWhile p = text := by
  cases text with
  | nil => rfl
  | cons c text => rw [List.dropWhile_cons_of_neg (by simp [h c List.mem_cons_self])]

theorem strip_of_forall {p : Char → Bool} {text : List Char} (h : ∀ c ∈ text, p c = false) :
    ((text.dropWhile p).reverse.dropWhile p).reverse = text := by
  rw [dropWhile_of_forall h, dropWhile_of_forall fun c hc => h c (List.mem_reverse.mp hc),
    List.reverse_reverse]

/-- Stripping takes white space off both ends. -/
theorem strip_split (s : List Char) : ∃ a b, s = a ++ strip s ++ b ∧
    (∀ c ∈ a, isSpace c = true) ∧ (∀ c ∈ b, isSpace c = true) ∧
    s.dropWhile isSpace = strip s ++ b := by
  have hleft : s.takeWhile isSpace ++ s.dropWhile isSpace = s := List.takeWhile_append_dropWhile
  have hright := congrArg List.reverse (List.takeWhile_append_dropWhile (p := isSpace)
    (l := (s.dropWhile isSpace).reverse))
  rw [List.reverse_append, List.reverse_reverse] at hright
  have hdrop : s.dropWhile isSpace =
      strip s ++ ((s.dropWhile isSpace).reverse.takeWhile isSpace).reverse := hright.symm
  refine ⟨s.takeWhile isSpace, _, ?_, fun c hc => List.mem_takeWhile_imp hc, ?_, hdrop⟩
  · rw [List.append_assoc, ← hdrop, hleft]
  · intro c hc
    exact List.mem_takeWhile_imp (List.mem_reverse.mp hc)

theorem mem_of_mem_strip {s : List Char} {c : Char} (h : c ∈ strip s) : c ∈ s := by
  obtain ⟨a, b, hsplit, -⟩ := strip_split s
  rw [hsplit]
  exact List.mem_append_left b (List.mem_append_right a h)

theorem mem_strip_or_isSpace {s : List Char} {c : Char} (h : c ∈ s) :
    c ∈ strip s ∨ isSpace c = true := by
  obtain ⟨a, b, hsplit, ha, hb, -⟩ := strip_split s
  rw [hsplit] at h
  rcases List.mem_append.mp h with h | h
  · rcases List.mem_append.mp h with h | h
    · exact Or.inr (ha c h)
    · exact Or.inl h
  · exact Or.inr (hb c h)

section
variable {sep : Char} {s t : List Char}

theorem lastSegment_of_not_mem (h : sep ∉ s) : lastSegment sep s = s := by
  have hall : ∀ c ∈ s.reverse, (c != sep) = true := by
    intro c hc
    rw [bne_iff_ne]
    exact fun heq => h (heq ▸ List.mem_reverse.mp hc)
  have htake : (s.reverse ++ []).takeWhile (· != sep) = s.reverse ++ [].takeWhile (· != sep) :=
    List.takeWhile_append_of_pos hall
  rw [List.append_nil, List.takeWhile_nil, List.append_nil] at htake
  unfold lastSegment
  rw [htake, List.reverse_reverse]

theorem lastSegment_append_of_not_mem (h : sep ∉ t) :
    lastSegment sep (s ++ t) = lastSegment sep s ++ t := by
  have hall : ∀ c ∈ t.reverse, (c != sep) = true := by
    intro c hc
    rw [bne_iff_ne]
    exact fun heq => h (heq ▸ List.mem_reverse.mp hc)
  unfold lastSegment
  rw [List.reverse_append, List.takeWhile_append_of_pos hall, List.reverse_append,
    List.reverse_reverse]

theorem lastSegment_append_of_mem (h : sep ∈ t) :
    lastSegment sep (s ++ t) = lastSegment sep t := by
  unfold lastSegment
  rw [List.reverse_append, List.takeWhile_append, if_neg]
  intro hlength
  have hself := List.IsPrefix.eq_of_length (List.takeWhile_prefix (l := t.reverse) (· != sep)) hlength
  have hsep : sep ∈ t.reverse.takeWhile (· != sep) := by
    rw [hself]
    exact List.mem_reverse.mpr h
  have hne := List.mem_takeWhile_imp hsep
  simp at hne

theorem lastSegment_cut : lastSegment sep (s ++ sep :: t) = lastSegment sep t := by
  by_cases h : sep ∈ t
  · rw [List.append_cons, lastSegment_append_of_mem h]
  · have hself : lastSegment sep (s ++ [sep]) = [] := by
      unfold lastSegment
      rw [List.reverse_append, List.reverse_singleton, List.singleton_append,
        List.takeWhile_cons_of_neg (by simp), List.reverse_nil]
    rw [List.append_cons, lastSegment_append_of_not_mem h, hself, List.nil_append,
      lastSegment_of_not_mem h]

end

theorem mem_intercalate {sep c : Char} {xs : List (List Char)} (h : c ∈ [sep].intercalate xs) :
    c = sep ∨ ∃ x ∈ xs, c ∈ x := by
  induction xs with
  | nil => cases h
  | cons x xs ih =>
    cases xs with
    | nil =>
      rw [List.intercalate_singleton] at h
      exact Or.inr ⟨x, List.mem_cons_self, h⟩
    | cons y xs =>
      rw [List.intercalate_cons_cons, List.append_assoc, List.mem_append, List.mem_append,
        List.mem_singleton] at h
      rcases h with h | h | h
      · exact Or.inr ⟨x, List.mem_cons_self, h⟩
      · exact Or.inl h
      · exact (ih h).imp_right fun ⟨z, hz, hc⟩ => ⟨z, List.mem_cons_of_mem x hz, hc⟩

/-- Names joined with a separator that stands in none of them can be told apart again. -/
theorem intercalate_inj {sep : Char} {xs ys : List (List Char)} (hx : ∀ x ∈ xs, x ≠ [] ∧ sep ∉ x)
    (hy : ∀ y ∈ ys, y ≠ [] ∧ sep ∉ y) (h : [sep].intercalate xs = [sep].intercalate ys) :
    xs = ys := by
  have hnil : ∀ {zs : List (List Char)}, (∀ z ∈ zs, z ≠ [] ∧ sep ∉ z) →
      [sep].intercalate zs = [] → zs = [] := by
    intro zs hz hjoin
    cases zs with
    | nil => rfl
    | cons z zs =>
      refine absurd ?_ (hz z List.mem_cons_self).1
      cases zs with
      | nil => rwa [List.intercalate_singleton] at hjoin
      | cons z' zs =>
        rw [List.intercalate_cons_cons, List.append_assoc] at hjoin
        exact (List.append_eq_nil_iff.mp hjoin).1
  by_cases hxs : xs = []
  · subst hxs
    exact (hnil hy h.symm).symm
  · by_cases hys : ys = []
    · subst hys
      exact hnil hx h
    · rw [← List.splitOn_intercalate sep (fun x hmem => (hx x hmem).2) hxs, h,
        List.splitOn_intercalate sep (fun y hmem => (hy y hmem).2) hys]

/-- `a or b` on optional strings: `None` and `""` are false. -/
def pyOr (a b : Option String) : Option String :=
  match a with
  | some s => if s = "" then b else some s
  | none => b

/-- `bool(a)` of an optional string. -/
def truthy (a : Option String) : Bool :=
  match a with
  | some s => s != ""
  | none => false

/-- `d[key] = value`: an existing key keeps its place. -/
def dictSet {α : Type} (d : List (String × α)) (key : String) (value : α) : List (String × α) :=
  match d with
  | [] => [(key, value)]
  | (k, v) :: rest => if k = key then (k, value) :: rest else (k, v) :: dictSet rest key value

theorem dictSet_new {α : Type} {d : List (String × α)} {key : String} (value : α)
    (h : key ∉ d.map Prod.fst) : dictSet d key value = d ++ [(key, value)] := by
  induction d with
  | nil => rfl
  | cons kv d ih =>
    rw [List.map_cons, List.mem_cons, not_or] at h
    unfold dictSet
    rw [if_neg fun heq => h.1 heq.symm, ih h.2]
    rfl

theorem dictSet_ne_nil {α : Type} (d : List (String × α)) (key : String) (value : α) :
    dictSet d key value ≠ [] := by
  cases d with
  | nil => exact List.cons_ne_nil _ _
  | cons kv d =>
    unfold dictSet
    split
    · exact List.cons_ne_nil _ _
    · exact List.cons_ne_nil _ _

theorem mem_dictSet {α : Type} {d : List (String × α)} {key : String} {value : α}
    {kv : String × α} (h : kv ∈ dictSet d key value) : kv ∈ d ∨ kv = (key, value) := by
  induction d with
  | nil => exact Or.inr (List.mem_singleton.mp h)
  | cons kv' d ih =>
    unfold dictSet at h
    split at h
    · next heq =>
      rcases List.mem_cons.mp h with rfl | h
      · exact Or.inr (by rw [heq])
      · exact Or.inl (List.mem_cons_of_mem kv' h)
    · rcases List.mem_cons.mp h with rfl | h
      · exact Or.inl List.mem_cons_self
      · rcases ih h with hd | hnew
        · exact Or.inl (List.mem_cons_of_mem kv' hd)
        · exact Or.inr hnew

/-- Setting keys that are all new lists them in their order. -/
theorem foldl_dictSet {α : Type} {attrs d : List (String × α)}
    (h : ((d ++ attrs).map Prod.fst).Nodup) :
    attrs.foldl (fun d kv => dictSet d kv.1 kv.2) d = d ++ attrs := by
  induction attrs generalizing d with
  | nil => simp
  | cons kv attrs ih =>
    have hnew : kv.1 ∉ d.map Prod.fst := by
      rw [List.map_append, List.nodup_append] at h
      intro hmem
      exact h.2.2 _ hmem _ (List.mem_map_of_mem List.mem_cons_self) rfl
    rw [List.foldl_cons, dictSet_new kv.2 hnew, ih]
    · simp
    · simpa using h

/-- `sorted(strings)`: by code points, equal strings in their order. -/
def sortedStrings (l : List String) : List String :=
  l.foldr insertSorted []
where
  insertSorted (s : String) : List String → List String
    | [] => [s]
    | t :: rest => if t.toList < s.toList then t :: insertSorted s rest else s :: t :: rest

theorem mem_insertSorted {s t : String} {l : List String} :
    s ∈ sortedStrings.insertSorted t l ↔ s = t ∨ s ∈ l := by
  induction l with
  | nil => simp [sortedStrings.insertSorted]
  | cons u rest ih =>
    unfold sortedStrings.insertSorted
    split
    · rw [List.mem_cons, ih, List.mem_cons]
      tauto
    · rw [List.mem_cons]

theorem mem_sortedStrings {s : String} {l : List String} : s ∈ sortedStrings l ↔ s ∈ l := by
  induction l with
  | nil => simp [sortedStrings]
  | cons t rest ih =>
    have hcons : sortedStrings (t :: rest) =
        sortedStrings.insertSorted t (sortedStrings rest) := rfl
    rw [hcons, mem_insertSorted, ih, List.mem_cons]

end AegisPlatform.Foundations
