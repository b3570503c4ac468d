import Mathlib.Data.List.Basic
import Mathlib.Data.List.TakeWhile
import Mathlib.Data.Nat.Digits.Defs
import Mathlib.Tactic.Ring.RingNF

/-! # Flat JSON objects as text

`json.dumps` of a dictionary of texts, integers and nulls with its default options, and a reader of
what it writes. The text is ASCII: a character beyond it is written as its UTF-16 code units, each
behind `\u`, and those of one character are put together again by the reader.

Every piece of the writer has a piece of the reader that takes it off the front of a longer text and
leaves the rest; `loads_dumps` is their composition. So two objects never share a text.
-/

namespace AegisPlatform.Foundations.JsonText
set_option autoImplicit false
set_option maxHeartbeats 250000

inductive Scalar
  | null
  | int (z : ℤ)
  | str (s : String)
deriving DecidableEq

abbrev Object := List (String × Scalar)

/-! ## Code units -/

def utf16 (c : Char) : List ℕ :=
  if c.toNat < 0x10000 then [c.toNat]
  else [0xd800 + (c.toNat - 0x10000) / 0x400, 0xdc00 + (c.toNat - 0x10000) % 0x400]

/-- A pair of surrogates is one character; one without the other is none. -/
def joinUnits : List ℕ → Option (List Char)
  | [] => some []
  | n :: ns =>
    if 0xd800 ≤ n ∧ n < 0xdc00 then
      match ns with
      | [] => none
      | m :: ms =>
        if 0xdc00 ≤ m ∧ m < 0xe000 then
          (joinUnits ms).map (Char.ofNat (0x10000 + (n - 0xd800) * 0x400 + (m - 0xdc00)) :: ·)
        else none
    else if 0xdc00 ≤ n ∧ n < 0xe000 then none
    else (joinUnits ns).map (Char.ofNat n :: ·)

theorem toNat_cases (c : Char) : c.toNat < 0xd800 ∨ 0xe000 ≤ c.toNat ∧ c.toNat < 0x110000 := by
  rcases c.valid with h | ⟨hlow, hhigh⟩
  · exact Or.inl h
  · exact Or.inr ⟨hlow, hhigh⟩

theorem lt_of_mem_utf16 {c : Char} {n : ℕ} (h : n ∈ utf16 c) : n < 0x10000 := by
  have hc := toNat_cases c
  unfold utf16 at h
  split at h
  · simp only [List.mem_singleton] at h
    omega
  · simp only [List.mem_cons, List.not_mem_nil, or_false] at h
    omega

theorem joinUnits_one {n : ℕ} (h : n < 0xd800 ∨ 0xe000 ≤ n ∧ n < 0x110000) (ns : List ℕ) :
    joinUnits (n :: ns) = (joinUnits ns).map (Char.ofNat n :: ·) := by
  conv_lhs => unfold joinUnits
  rw [if_neg (by omega), if_neg (by omega)]

theorem joinUnits_pair {n m : ℕ} (hn : 0xd800 ≤ n ∧ n < 0xdc00) (hm : 0xdc00 ≤ m ∧ m < 0xe000)
    (ns : List ℕ) : joinUnits (n :: m :: ns) =
      (joinUnits ns).map (Char.ofNat (0x10000 + (n - 0xd800) * 0x400 + (m - 0xdc00)) :: ·) := by
  conv_lhs => unfold joinUnits
  rw [if_pos hn]
  simp only
  rw [if_pos hm]

theorem joinUnits_utf16 (c : Char) (ns : List ℕ) :
    joinUnits (utf16 c ++ ns) = (joinUnits ns).map (c :: ·) := by
  have hc := toNat_cases c
  unfold utf16
  by_cases hsmall : c.toNat < 0x10000
  · rw [if_pos hsmall, List.singleton_append, joinUnits_one hc, Char.ofNat_toNat]
  · have hpair : 0x10000 + (0xd800 + (c.toNat - 0x10000) / 0x400 - 0xd800) * 0x400 +
        (0xdc00 + (c.toNat - 0x10000) % 0x400 - 0xdc00) = c.toNat := by omega
    rw [if_neg hsmall, List.cons_append, List.singleton_append,
      joinUnits_pair (by omega) (by omega), hpair, Char.ofNat_toNat]

theorem joinUnits_flatMap (s : List Char) : joinUnits (s.flatMap utf16) = some s := by
  induction s with
  | nil => rfl
  | cons c s ih => rw [List.flatMap_cons, joinUnits_utf16, ih, Option.map_some]

/-! ## Texts -/

def hexDigit (n : ℕ) : Char := if n < 10 then Char.ofNat (48 + n) else Char.ofNat (87 + n)

def hexValue (c : Char) : Option ℕ :=
  if '0' ≤ c ∧ c ≤ '9' then some (c.toNat - 48)
  else if 'a' ≤ c ∧ c ≤ 'f' then some (c.toNat - 87)
  else if 'A' ≤ c ∧ c ≤ 'F' then some (c.toNat - 55)
  else none

theorem hexValue_hexDigit : ∀ n < 16, hexValue (hexDigit n) = some n := by decide

/-- `\u{n:04x}` -/
def hex4 (n : ℕ) : List Char :=
  [hexDigit (n / 4096), hexDigit (n / 256 % 16), hexDigit (n / 16 % 16), hexDigit (n % 16)]

def escapes : List (ℕ × Char) :=
  [(0x22, '"'), (0x5c, '\\'), (0x0a, 'n'), (0x0d, 'r'), (0x09, 't'), (0x0c, 'f'), (0x08, 'b')]

def escapeUnit (n : ℕ) : List Char :=
  match escapes.lookup n with
  | some e => ['\\', e]
  | none => if 0x20 ≤ n ∧ n ≤ 0x7e then [Char.ofNat n] else '\\' :: 'u' :: hex4 n

def quoted (s : String) : List Char :=
  '"' :: (s.toList.flatMap utf16).flatMap escapeUnit ++ ['"']

def readHex4 : List Char → Option (ℕ × List Char)
  | a :: b :: c :: d :: rest =>
    match hexValue a, hexValue b, hexValue c, hexValue d with
    | some a, some b, some c, some d => some (a * 4096 + b * 256 + c * 16 + d, rest)
    | _, _, _, _ => none
  | _ => none

def unescape (e : Char) : Option ℕ := (escapes.find? fun p => p.2 == e).map Prod.fst

/-- One character of a text, or one escape. -/
def readUnit : List Char → Option (ℕ × List Char)
  | [] => none
  | c :: rest =>
    if c = '\\' then
      match rest with
      | [] => none
      | e :: rest => if e = 'u' then readHex4 rest else (unescape e).map (·, rest)
    else if c.toNat < 0x20 then none
    else some (c.toNat, rest)

/-- Up to the closing quote. -/
def readUnits : ℕ → List Char → Option (List ℕ × List Char)
  | 0, _ => none
  | fuel + 1, text =>
    match text with
    | [] => none
    | c :: rest =>
      if c = '"' then some ([], rest)
      else
        match readUnit text with
        | none => none
        | some (n, rest) =>
          match readUnits fuel rest with
          | none => none
          | some (ns, rest) => some (n :: ns, rest)

def readQuoted : List Char → Option (String × List Char)
  | [] => none
  | c :: text =>
    if c = '"' then
      match readUnits (text.length + 1) text with
      | none => none
      | some (ns, rest) => (joinUnits ns).map fun s => (String.ofList s, rest)
    else none

theorem readHex4_hex4 {n : ℕ} (h : n < 0x10000) (rest : List Char) :
    readHex4 (hex4 n ++ rest) = some (n, rest) := by
  have h3 := hexValue_hexDigit (n / 4096) (by omega)
  have h2 := hexValue_hexDigit (n / 256 % 16) (by omega)
  have h1 := hexValue_hexDigit (n / 16 % 16) (by omega)
  have h0 := hexValue_hexDigit (n % 16) (by omega)
  have hsum : n / 4096 * 4096 + n / 256 % 16 * 256 + n / 16 % 16 * 16 + n % 16 = n := by omega
  simp only [hex4, List.cons_append, List.nil_append, readHex4, h3, h2, h1, h0, hsum]

/-- Everything the escape of a unit can be. -/
theorem escapeUnit_cases (n : ℕ) :
    (∃ e, escapeUnit n = ['\\', e] ∧ e ≠ 'u' ∧ unescape e = some n) ∨
    (escapeUnit n = [Char.ofNat n] ∧ 0x20 ≤ n ∧ n ≤ 0x7e ∧ n ≠ 0x22 ∧ n ≠ 0x5c) ∨
    escapeUnit n = '\\' :: 'u' :: hex4 n := by
  have htable : ∀ p ∈ escapes, p.2 ≠ 'u' ∧ unescape p.2 = some p.1 := by decide
  unfold escapeUnit
  cases h : escapes.lookup n with
  | some e =>
    have hmem : (n, e) ∈ escapes := by
      obtain ⟨l, k, hsplit, -⟩ := List.lookup_eq_some_iff.mp h
      rw [hsplit]
      exact List.mem_append_right _ List.mem_cons_self
    obtain ⟨hu, hvalue⟩ := htable (n, e) hmem
    exact Or.inl ⟨e, rfl, hu, hvalue⟩
  | none =>
    by_cases hprint : 0x20 ≤ n ∧ n ≤ 0x7e
    · refine Or.inr (Or.inl ⟨if_pos hprint, hprint.1, hprint.2, ?_, ?_⟩)
      · rintro rfl
        cases h
      · rintro rfl
        cases h
    · exact Or.inr (Or.inr (if_neg hprint))

theorem toNat_ofNat_ascii : ∀ n < 128, (Char.ofNat n).toNat = n := by decide

theorem readUnit_escapeUnit {n : ℕ} (h : n < 0x10000) (rest : List Char) :
    readUnit (escapeUnit n ++ rest) = some (n, rest) := by
  rcases escapeUnit_cases n with ⟨e, heq, hu, hvalue⟩ | ⟨heq, hlow, hhigh, -, hslash⟩ | heq
  · rw [heq]
    simp [readUnit, hu, hvalue]
  · have hnat := toNat_ofNat_ascii n (by omega)
    have hne : Char.ofNat n ≠ '\\' := by
      intro h
      rw [h] at hnat
      exact hslash hnat.symm
    rw [heq, List.singleton_append]
    unfold readUnit
    simp only
    rw [if_neg hne, hnat, if_neg (by omega)]
  · rw [heq]
    simp [readUnit, readHex4_hex4 h]

/-- No escape begins like the end of the text. -/
theorem escapeUnit_head (n : ℕ) : ∃ c rest, escapeUnit n = c :: rest ∧ c ≠ '"' := by
  rcases escapeUnit_cases n with ⟨e, heq, -, -⟩ | ⟨heq, hlow, hhigh, hquote, -⟩ | heq
  · exact ⟨_, _, heq, by decide⟩
  · refine ⟨_, _, heq, fun h => ?_⟩
    have hnat := toNat_ofNat_ascii n (by omega)
    rw [h] at hnat
    exact hquote hnat.symm
  · exact ⟨_, _, heq, by decide⟩

theorem readUnits_escaped {ns : List ℕ} (h : ∀ n ∈ ns, n < 0x10000) {fuel : ℕ}
    (hfuel : ns.length < fuel) (rest : List Char) :
    readUnits fuel (ns.flatMap escapeUnit ++ '"' :: rest) = some (ns, rest) := by
  induction ns generalizing fuel with
  | nil =>
    obtain ⟨fuel, rfl⟩ : ∃ k, fuel = k + 1 := ⟨fuel - 1, by simp at hfuel; omega⟩
    rfl
  | cons n ns ih =>
    obtain ⟨fuel, rfl⟩ : ∃ k, fuel = k + 1 := ⟨fuel - 1, by simp at hfuel; omega⟩
    have hrest := ih (fun m hm => h m (List.mem_cons_of_mem n hm)) (by simpa using hfuel)
    have hunit := readUnit_escapeUnit (h n List.mem_cons_self)
      (ns.flatMap escapeUnit ++ '"' :: rest)
    obtain ⟨c, tail, heq, hc⟩ := escapeUnit_head n
    rw [List.flatMap_cons, List.append_assoc]
    rw [heq] at hunit ⊢
    rw [List.cons_append] at hunit ⊢
    rw [readUnits]
    simp only [if_neg hc, hunit, hrest]

theorem length_escapeUnit (n : ℕ) : 1 ≤ (escapeUnit n).length := by
  obtain ⟨c, rest, heq, -⟩ := escapeUnit_head n
  simp [heq]

theorem length_le_flatMap (ns : List ℕ) : ns.length ≤ (ns.flatMap escapeUnit).length := by
  induction ns with
  | nil => simp
  | cons n ns ih =>
    have hn := length_escapeUnit n
    simp only [List.flatMap_cons, List.length_append, List.length_cons]
    omega

theorem readQuoted_quoted (s : String) (rest : List Char) :
    readQuoted (quoted s ++ rest) = some (s, rest) := by
  have hunits : ∀ n ∈ s.toList.flatMap utf16, n < 0x10000 := by
    intro n hn
    obtain ⟨c, -, hc⟩ := List.mem_flatMap.mp hn
    exact lt_of_mem_utf16 hc
  have hfuel : (s.toList.flatMap utf16).length <
      ((s.toList.flatMap utf16).flatMap escapeUnit ++ '"' :: rest).length + 1 := by
    have hle := length_le_flatMap (s.toList.flatMap utf16)
    simp only [List.length_append]
    omega
  unfold quoted
  rw [List.cons_append, List.cons_append, List.append_assoc, List.singleton_append, readQuoted,
    if_pos rfl, readUnits_escaped hunits hfuel]
  simp only [joinUnits_flatMap, Option.map_some, String.ofList_toList]

/-! ## Integers -/

def intText (z : ℤ) : List Char :=
  if z < 0 then '-' :: Nat.toDigits 10 z.natAbs else Nat.toDigits 10 z.natAbs

def readNat (text : List Char) : Option (ℕ × List Char) :=
  match text.takeWhile Char.isDigit with
  | [] => none
  | digits => some (Nat.ofDigitChars 10 digits 0, text.dropWhile Char.isDigit)

def readInt : List Char → Option (ℤ × List Char)
  | [] => none
  | c :: rest =>
    if c = '-' then (readNat rest).map fun p => (-(p.1 : ℤ), p.2)
    else (readNat (c :: rest)).map fun p => ((p.1 : ℤ), p.2)

/-- The text does not go on with a digit. -/
def NoDigit (rest : List Char) : Prop := ∀ c ∈ rest.head?, c.isDigit = false

theorem readNat_toDigits (n : ℕ) {rest : List Char} (h : NoDigit rest) :
    readNat (Nat.toDigits 10 n ++ rest) = some (n, rest) := by
  have hdigits : ∀ c ∈ Nat.toDigits 10 n, c.isDigit = true := fun c hc =>
    Nat.isDigit_of_mem_toDigits (by decide) (by decide) hc
  have hnil : rest.takeWhile Char.isDigit = [] := by
    cases rest with
    | nil => rfl
    | cons c rest => simp [h c rfl]
  have hdrop : rest.dropWhile Char.isDigit = rest := by
    cases rest with
    | nil => rfl
    | cons c rest => simp [h c rfl]
  have htake : (Nat.toDigits 10 n ++ rest).takeWhile Char.isDigit = Nat.toDigits 10 n := by
    rw [List.takeWhile_append_of_pos hdigits, hnil, List.append_nil]
  have hleft : (Nat.toDigits 10 n ++ rest).dropWhile Char.isDigit = rest := by
    rw [List.dropWhile_append_of_pos hdigits, hdrop]
  unfold readNat
  rw [htake, hleft]
  cases hd : Nat.toDigits 10 n with
  | nil => exact absurd hd Nat.toDigits_ne_nil
  | cons c cs =>
    simp only
    rw [← hd, Nat.ofDigitChars_ten_toDigits]

theorem readInt_intText (z : ℤ) {rest : List Char} (h : NoDigit rest) :
    readInt (intText z ++ rest) = some (z, rest) := by
  have hnat := readNat_toDigits z.natAbs h
  unfold intText
  by_cases hneg : z < 0
  · rw [if_pos hneg, List.cons_append, readInt, if_pos rfl, hnat]
    simp only [Option.map_some, Option.some.injEq, Prod.mk.injEq, and_true]
    omega
  · rw [if_neg hneg]
    cases hd : Nat.toDigits 10 z.natAbs with
    | nil => exact absurd hd Nat.toDigits_ne_nil
    | cons c cs =>
      have hc : c ≠ '-' := by
        rintro rfl
        have hdigit : ('-' : Char).isDigit = true := Nat.isDigit_of_mem_toDigits (b := 10)
          (n := z.natAbs) (by decide) (by decide) (hd ▸ List.mem_cons_self)
        exact absurd hdigit (by decide)
      rw [hd] at hnat
      rw [List.cons_append] at hnat ⊢
      rw [readInt, if_neg hc, hnat]
      simp only [Option.map_some, Option.some.injEq, Prod.mk.injEq, and_true]
      omega

/-! ## Objects -/

def scalarText : Scalar → List Char
  | .null => ['n', 'u', 'l', 'l']
  | .int z => intText z
  | .str s => quoted s

def fieldText (field : String × Scalar) : List Char :=
  quoted field.1 ++ ':' :: ' ' :: scalarText field.2

def fieldsText : Object → List Char
  | [] => []
  | [field] => fieldText field
  | field :: fields => fieldText field ++ ',' :: ' ' :: fieldsText fields

/-- `json.dumps` -/
def dumps (object : Object) : String := String.ofList ('{' :: fieldsText object ++ ['}'])

def readScalar (text : List Char) : Option (Scalar × List Char) :=
  match text with
  | '"' :: _ => (readQuoted text).map fun p => (.str p.1, p.2)
  | 'n' :: 'u' :: 'l' :: 'l' :: rest => some (.null, rest)
  | _ => (readInt text).map fun p => (.int p.1, p.2)

def readField (text : List Char) : Option ((String × Scalar) × List Char) :=
  match readQuoted text with
  | some (key, ':' :: ' ' :: rest) => (readScalar rest).map fun p => ((key, p.1), p.2)
  | _ => none

def readFields : ℕ → List Char → Option (Object × List Char)
  | 0, _ => none
  | fuel + 1, text =>
    match readField text with
    | some (field, '}' :: rest) => some ([field], rest)
    | some (field, ',' :: ' ' :: rest) => (readFields fuel rest).map fun p => (field :: p.1, p.2)
    | _ => none

def loads (s : String) : Option Object :=
  match s.toList with
  | '{' :: text =>
    if text = ['}'] then some []
    else
      match readFields text.length text with
      | some (object, []) => some object
      | _ => none
  | _ => none

/-- No integer begins like a text or a null. -/
theorem intText_head (z : ℤ) : ∃ c cs, intText z = c :: cs ∧ c ≠ '"' ∧ c ≠ 'n' := by
  unfold intText
  split
  · exact ⟨_, _, rfl, by decide, by decide⟩
  · cases hd : Nat.toDigits 10 z.natAbs with
    | nil => exact absurd hd Nat.toDigits_ne_nil
    | cons c cs =>
      have hdigit : c.isDigit = true := Nat.isDigit_of_mem_toDigits (b := 10)
        (n := z.natAbs) (by decide) (by decide) (hd ▸ List.mem_cons_self)
      refine ⟨c, cs, rfl, ?_, ?_⟩
      · rintro rfl
        exact absurd hdigit (by decide)
      · rintro rfl
        exact absurd hdigit (by decide)

theorem readScalar_scalarText (v : Scalar) {rest : List Char} (h : NoDigit rest) :
    readScalar (scalarText v ++ rest) = some (v, rest) := by
  cases v with
  | null => rfl
  | str s =>
    have hread := readQuoted_quoted s rest
    change readScalar (quoted s ++ rest) = some (.str s, rest)
    unfold quoted at hread ⊢
    rw [List.cons_append, List.cons_append] at hread ⊢
    simp only [readScalar, hread, Option.map_some]
  | int z =>
    have hread := readInt_intText z h
    change readScalar (intText z ++ rest) = some (.int z, rest)
    obtain ⟨c, cs, heq, hquote, hn⟩ := intText_head z
    rw [heq, List.cons_append] at hread ⊢
    unfold readScalar
    split
    · next hc => exact absurd (List.cons.inj hc).1 hquote
    · next hc => exact absurd (List.cons.inj hc).1 hn
    · rw [hread]
      rfl

theorem readField_fieldText (field : String × Scalar) {rest : List Char} (h : NoDigit rest) :
    readField (fieldText field ++ rest) = some (field, rest) := by
  have hkey := readQuoted_quoted field.1 (':' :: ' ' :: (scalarText field.2 ++ rest))
  unfold fieldText readField
  rw [List.append_assoc, List.cons_append, List.cons_append, hkey]
  simp only [readScalar_scalarText field.2 h, Option.map_some]

theorem readFields_fieldsText {object : Object} (hne : object ≠ []) {fuel : ℕ}
    (hfuel : object.length ≤ fuel) (rest : List Char) :
    readFields fuel (fieldsText object ++ '}' :: rest) = some (object, rest) := by
  induction object generalizing fuel with
  | nil => exact absurd rfl hne
  | cons field fields ih =>
    obtain ⟨fuel, rfl⟩ : ∃ k, fuel = k + 1 := ⟨fuel - 1, by simp at hfuel; omega⟩
    cases fields with
    | nil =>
      have hfield := readField_fieldText field (show NoDigit ('}' :: rest) by simp [NoDigit])
      simp only [fieldsText, readFields, hfield]
    | cons next fields =>
      have hrest := ih (by simp) (by simpa using hfuel)
      have hfield := readField_fieldText field (show NoDigit
        (',' :: ' ' :: (fieldsText (next :: fields) ++ '}' :: rest)) by simp [NoDigit])
      rw [fieldsText, List.append_assoc, List.cons_append, List.cons_append, readFields, hfield]
      · simp only [hrest, Option.map_some]
      · simp

theorem length_fieldsText (object : Object) : object.length ≤ (fieldsText object).length := by
  have hfield : ∀ field, 1 ≤ (fieldText field).length := by
    intro field
    simp only [fieldText, List.length_append, List.length_cons]
    omega
  induction object with
  | nil => simp
  | cons field fields ih =>
    cases fields with
    | nil => simpa [fieldsText] using hfield field
    | cons next fields =>
      have h := hfield field
      rw [fieldsText]
      · simp only [List.length_append, List.length_cons] at ih ⊢
        omega
      · simp

/-- A client reads what was written. -/
theorem loads_dumps (object : Object) : loads (dumps object) = some object := by
  unfold loads dumps
  rw [String.toList_ofList]
  cases object with
  | nil => rfl
  | cons field fields =>
    have hlength := length_fieldsText (field :: fields)
    have hfuel : (field :: fields).length ≤ (fieldsText (field :: fields) ++ ['}']).length := by
      rw [List.length_append]
      omega
    have hmore : fieldsText (field :: fields) ++ ['}'] ≠ ['}'] := by
      intro heq
      have hlen := congrArg List.length heq
      rw [List.length_append, List.length_singleton] at hlen
      rw [List.length_cons] at hlength
      omega
    have hread := readFields_fieldsText (by simp) hfuel []
    simp only [List.cons_append, if_neg hmore, hread]

end AegisPlatform.Foundations.JsonText
