import AegisPlatform.Foundations.JsonText
import AegisPlatform.Foundations.PyText

/-! # UUIDs as text

`str` of a UUID, five groups of hexadecimal digits, and the constructor `uuid.UUID`, which takes the
hyphens, braces and prefixes off a text and reads the 32 characters left as `int` to the base 16
does: with a sign, a `0x` and single underscores between the digits.
-/

namespace AegisPlatform.Foundations.UuidForm
open JsonText
set_option autoImplicit false
set_option maxHeartbeats 250000

/-! ## Writing -/

/-- The last `width` hexadecimal digits of `n`. -/
def hexDigits : ℕ → ℕ → List Char
  | 0, _ => []
  | width + 1, n => hexDigits width (n / 16) ++ [hexDigit (n % 16)]

/-- `str(uuid)` -/
def str (n : ℕ) : String :=
  let hex := hexDigits 32 n
  String.ofList (hex.take 8 ++ '-' :: (hex.drop 8).take 4 ++ '-' :: (hex.drop 12).take 4 ++
    '-' :: (hex.drop 16).take 4 ++ '-' :: hex.drop 20)

/-! ## Reading -/

/-- `text.replace(pattern, "")`; `skip` characters of an occurrence are still to be left out. -/
def remove (pattern : List Char) : ℕ → List Char → List Char
  | _, [] => []
  | skip + 1, _ :: text => remove pattern skip text
  | 0, c :: text =>
    if pattern.isPrefixOf (c :: text) then remove pattern (pattern.length - 1) text
    else c :: remove pattern 0 text

def isBrace (c : Char) : Bool := c == '{' || c == '}'

/-- `text.strip("{}")` -/
def stripBraces (text : List Char) : List Char :=
  ((text.dropWhile isBrace).reverse.dropWhile isBrace).reverse

/-- The digits after the first one, where an underscore may stand before each of them. -/
def readMore : ℕ → List Char → Option ℕ
  | n, [] => some n
  | n, '_' :: c :: text => (hexValue c).bind fun d => readMore (n * 16 + d) text
  | n, c :: text => (hexValue c).bind fun d => readMore (n * 16 + d) text

def readDigits : List Char → Option ℕ
  | [] => none
  | c :: text => (hexValue c).bind fun d => readMore d text

def readUnsigned : List Char → Option ℕ
  | '0' :: 'x' :: '_' :: text | '0' :: 'X' :: '_' :: text => readDigits text
  | '0' :: 'x' :: text | '0' :: 'X' :: text => readDigits text
  | text => readDigits text

/-- `int(text, 16)` -/
def readInt (text : List Char) : Option ℤ :=
  match strip text with
  | '-' :: text => (readUnsigned text).map fun n => -(n : ℤ)
  | '+' :: text => (readUnsigned text).map fun n => (n : ℤ)
  | text => (readUnsigned text).map fun n => (n : ℤ)

/-- `uuid.UUID(text)` -/
def parse (text : String) : Option ℕ :=
  let bare := remove "uuid:".toList 0 (remove "urn:".toList 0 text.toList)
  let hex := (stripBraces bare).filter fun c => c != '-'
  if hex.length = 32 then
    match readInt hex with
    | some z => if 0 ≤ z ∧ z < 2 ^ 128 then some z.toNat else none
    | none => none
  else none

/-! ## What was written is read -/

theorem length_hexDigits (width n : ℕ) : (hexDigits width n).length = width := by
  induction width generalizing n with
  | zero => rfl
  | succ width ih => rw [hexDigits, List.length_append, ih, List.length_singleton]

theorem mem_hexDigits {width n : ℕ} {c : Char} (h : c ∈ hexDigits width n) :
    ∃ d < 16, c = hexDigit d := by
  induction width generalizing n with
  | zero => cases h
  | succ width ih =>
    rcases List.mem_append.mp h with hfront | hlast
    · exact ih hfront
    · exact ⟨n % 16, Nat.mod_lt _ (by decide), List.mem_singleton.mp hlast⟩

/-- No digit is taken for a sign, a prefix, a separator or white space. -/
theorem plain_hexDigit : ∀ d < 16, hexDigit d ∉ ['-', '+', 'x', 'X', '_', 'u', '{', '}'] ∧
    isSpace (hexDigit d) = false := by decide

theorem mem_str {n : ℕ} {c : Char} (h : c ∈ (str n).toList) :
    c = '-' ∨ ∃ d < 16, c = hexDigit d := by
  have hmem : c = '-' ∨ c ∈ hexDigits 32 n := by
    simp only [str, String.toList_ofList, List.mem_append, List.mem_cons] at h
    rcases h with (((h | h | h) | h | h) | h | h) | h | h
    · exact Or.inr (List.mem_of_mem_take h)
    · exact Or.inl h
    · exact Or.inr (List.mem_of_mem_drop (List.mem_of_mem_take h))
    · exact Or.inl h
    · exact Or.inr (List.mem_of_mem_drop (List.mem_of_mem_take h))
    · exact Or.inl h
    · exact Or.inr (List.mem_of_mem_drop (List.mem_of_mem_take h))
    · exact Or.inl h
    · exact Or.inr (List.mem_of_mem_drop h)
  exact hmem.imp_right mem_hexDigits

theorem remove_of_not_mem {c : Char} {pattern text : List Char} (h : c ∉ text) :
    remove (c :: pattern) 0 text = text := by
  induction text with
  | nil => rfl
  | cons a text ih =>
    have hne : c ≠ a := fun heq => h (heq ▸ List.mem_cons_self)
    have hprefix : (c :: pattern).isPrefixOf (a :: text) = false := by
      simp [List.isPrefixOf, hne]
    rw [remove, hprefix, if_neg Bool.false_ne_true, ih fun hmem => h (List.mem_cons_of_mem a hmem)]

theorem filter_str (n : ℕ) : (str n).toList.filter (fun c => c != '-') = hexDigits 32 n := by
  have hdigits : ∀ c ∈ hexDigits 32 n, (c != '-') = true := by
    intro c hc
    obtain ⟨d, hd, rfl⟩ := mem_hexDigits hc
    simpa using fun heq => (plain_hexDigit d hd).1 (by simp [heq])
  have hkeep : ∀ part : List Char, part ⊆ hexDigits 32 n →
      part.filter (fun c => c != '-') = part := fun part hpart =>
    List.filter_eq_self.mpr fun c hc => hdigits c (hpart hc)
  have hgroup : ∀ a b : ℕ, ((hexDigits 32 n).drop a).take b ⊆ hexDigits 32 n := fun a b =>
    List.Subset.trans (List.take_subset ..) (List.drop_subset ..)
  simp only [str, String.toList_ofList, List.filter_append, List.filter_cons, bne_self_eq_false,
    Bool.false_eq_true, if_false, hkeep _ (List.take_subset ..), hkeep _ (hgroup ..),
    hkeep _ (List.drop_subset ..)]
  have h4 : ∀ a : ℕ, ((hexDigits 32 n).drop a).take 4 ++ (hexDigits 32 n).drop (a + 4) =
      (hexDigits 32 n).drop a := by
    intro a
    rw [← List.drop_drop, List.take_append_drop]
  rw [List.append_assoc, h4 16, List.append_assoc, h4 12, List.append_assoc, h4 8,
    List.take_append_drop]

/-- Reading goes on digit by digit. -/
theorem readMore_hexDigits (width : ℕ) (a n : ℕ) (rest : List Char) :
    readMore a (hexDigits width n ++ rest) = readMore (a * 16 ^ width + n % 16 ^ width) rest := by
  induction width generalizing n rest with
  | zero => simp [hexDigits, Nat.mod_one]
  | succ width ih =>
    have hlt : n % 16 < 16 := Nat.mod_lt _ (by decide)
    have hne : hexDigit (n % 16) ≠ '_' := fun heq => (plain_hexDigit _ hlt).1 (by simp [heq])
    have hvalue : (a * 16 ^ width + n / 16 % 16 ^ width) * 16 + n % 16 =
        a * 16 ^ (width + 1) + n % 16 ^ (width + 1) := by
      have hsplit : n % 16 ^ (width + 1) = n % 16 + 16 * (n / 16 % 16 ^ width) := by
        rw [pow_succ, Nat.mul_comm, Nat.mod_mul]
      rw [hsplit, pow_succ]
      ring
    rw [hexDigits, List.append_assoc, List.singleton_append, ih]
    rw [readMore]
    · rw [hexValue_hexDigit _ hlt, Option.bind_some, hvalue]
    · intro c text heq
      exact absurd heq hne

theorem readDigits_hexDigits {n : ℕ} (h : n < 2 ^ 128) :
    readDigits (hexDigits 32 n) = some n := by
  have hsplit : hexDigits 32 n = hexDigit (n / 16 ^ 31 % 16) :: hexDigits 31 n := by
    have hfront : ∀ (width m : ℕ), hexDigits (width + 1) m =
        hexDigit (m / 16 ^ width % 16) :: hexDigits width m := by
      intro width
      induction width with
      | zero => intro m; simp [hexDigits]
      | succ width ih =>
        intro m
        rw [hexDigits, ih, List.cons_append, Nat.div_div_eq_div_mul, ← pow_succ']
        rfl
    exact hfront 31 n
  have hread := readMore_hexDigits 31 (n / 16 ^ 31 % 16) n []
  rw [List.append_nil] at hread
  rw [hsplit, readDigits, hexValue_hexDigit _ (Nat.mod_lt _ (by decide)), Option.bind_some, hread,
    readMore]
  have hsmall : n / 16 ^ 31 % 16 = n / 16 ^ 31 := Nat.mod_eq_of_lt (by omega)
  rw [hsmall, Nat.mul_comm, Nat.div_add_mod]

theorem readInt_hexDigits {n : ℕ} (h : n < 2 ^ 128) : readInt (hexDigits 32 n) = some (n : ℤ) := by
  have hplain : ∀ c ∈ hexDigits 32 n, c ∉ ['-', '+', 'x', 'X', '_', 'u', '{', '}'] ∧
      isSpace c = false := by
    intro c hc
    obtain ⟨d, hd, rfl⟩ := mem_hexDigits hc
    exact plain_hexDigit d hd
  have hstrip : strip (hexDigits 32 n) = hexDigits 32 n :=
    strip_of_forall fun c hc => (hplain c hc).2
  have hread := readDigits_hexDigits h
  unfold readInt
  rw [hstrip]
  generalize hexDigits 32 n = text at hplain hread
  have hunsigned : readUnsigned text = some n := by
    unfold readUnsigned
    split
    · exact ((hplain 'x' (by simp)).1 (by simp)).elim
    · exact ((hplain 'X' (by simp)).1 (by simp)).elim
    · exact ((hplain 'x' (by simp)).1 (by simp)).elim
    · exact ((hplain 'X' (by simp)).1 (by simp)).elim
    · exact hread
  split
  · exact ((hplain '-' (by simp)).1 (by simp)).elim
  · exact ((hplain '+' (by simp)).1 (by simp)).elim
  · rw [hunsigned]
    rfl

/-- `uuid.UUID(str(uuid))` is the UUID. -/
theorem parse_str {n : ℕ} (h : n < 2 ^ 128) : parse (str n) = some n := by
  have hplain : ∀ c ∈ (str n).toList, c ≠ 'u' ∧ isBrace c = false := by
    intro c hc
    rcases mem_str hc with rfl | ⟨d, hd, rfl⟩
    · decide
    · have hd := (plain_hexDigit d hd).1
      simp only [List.mem_cons, List.not_mem_nil, or_false, not_or] at hd
      simp [isBrace, hd]
  have hu : 'u' ∉ (str n).toList := fun hmem => (hplain 'u' hmem).1 rfl
  have hurn : remove "urn:".toList 0 (str n).toList = (str n).toList := remove_of_not_mem hu
  have huuid : remove "uuid:".toList 0 (str n).toList = (str n).toList := remove_of_not_mem hu
  have hbraces : stripBraces (str n).toList = (str n).toList :=
    strip_of_forall fun c hc => (hplain c hc).2
  unfold parse
  simp only [hurn, huuid, hbraces, filter_str, length_hexDigits, readInt_hexDigits h]
  have hrange : 0 ≤ (n : ℤ) ∧ (n : ℤ) < 2 ^ 128 := by omega
  rw [if_pos trivial, if_pos hrange, Int.toNat_natCast]

end AegisPlatform.Foundations.UuidForm
