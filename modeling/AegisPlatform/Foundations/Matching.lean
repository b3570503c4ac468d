import AegisPlatform.Foundations.Regex
import Mathlib.Data.List.TakeWhile

/-! # What a pattern matches

`Eats` says which texts a pattern can match, in any of its ways; the matcher finds one of them
exactly if there is one. Patterns of the form `x([p]+)` have a closed form: `search` and `findAll`
read off the runs of `p` that stand right behind an `x`.
-/

namespace AegisPlatform.Foundations
set_option autoImplicit false
set_option maxHeartbeats 250000

namespace Regex

theorem noneOf_iff {cs : String} {c : Char} : noneOf cs c = true ↔ c ∉ cs.toList := by
  unfold noneOf
  simp

/-- `r` can match what stands before `t` in `s`, and adds its groups to the captures. -/
def Eats : Regex → List Char → Captures → List Char → Captures → Prop
  | eps, s, caps, t, caps' => t = s ∧ caps' = caps
  | one p, s, caps, t, caps' => ∃ c, s = c :: t ∧ p c = true ∧ caps' = caps
  | many p, s, caps, t, caps' => ∃ a, s = a ++ t ∧ (∀ c ∈ a, p c = true) ∧ caps' = caps
  | opt r, s, caps, t, caps' => Eats r s caps t caps' ∨ t = s ∧ caps' = caps
  | seq r q, s, caps, t, caps' => ∃ u caps'', Eats r s caps u caps'' ∧ Eats q u caps'' t caps'
  | alt r q, s, caps, t, caps' => Eats r s caps t caps' ∨ Eats q s caps t caps'
  | group n r, s, caps, t, caps' =>
      ∃ caps'', Eats r s caps t caps'' ∧ caps' = (n, s.take (s.length - t.length)) :: caps''

section
variable {α : Type}

theorem orElse_eq_some_iff {a : Option α} {b : Unit → Option α} {x : α} :
    a.orElse b = some x ↔ a = some x ∨ a = none ∧ b () = some x := by
  cases a with
  | none => simp
  | some y => simp

theorem isSome_orElse_iff {a : Option α} {b : Unit → Option α} :
    (a.orElse b).isSome ↔ a.isSome ∨ (b ()).isSome := by
  cases a with
  | none => simp
  | some y => simp

theorem runMany_some {p : Char → Bool} {s : List Char} {k : List Char → Option α} {x : α}
    (h : runMany p s k = some x) :
    ∃ a t, s = a ++ t ∧ (∀ c ∈ a, p c = true) ∧ k t = some x := by
  induction s with
  | nil => exact ⟨[], [], rfl, fun _ hc => absurd hc List.not_mem_nil, h⟩
  | cons c s ih =>
    unfold runMany at h
    by_cases hc : p c = true
    · rw [if_pos hc] at h
      cases hrest : runMany p s k with
      | none =>
        rw [hrest] at h
        exact ⟨[], c :: s, rfl, fun _ hc => absurd hc List.not_mem_nil, h⟩
      | some y =>
        rw [hrest] at h
        obtain ⟨a, t, heq, ha, hk⟩ := ih (hrest.trans h)
        refine ⟨c :: a, t, congrArg (c :: ·) heq, ?_, hk⟩
        intro d hd
        rcases List.mem_cons.mp hd with rfl | hd
        · exact hc
        · exact ha d hd
    · rw [if_neg hc] at h
      exact ⟨[], c :: s, rfl, fun _ hc => absurd hc List.not_mem_nil, h⟩

theorem runMany_isSome {p : Char → Bool} {a t : List Char} {k : List Char → Option α}
    (ha : ∀ c ∈ a, p c = true) (hk : (k t).isSome) : (runMany p (a ++ t) k).isSome := by
  have hstop : ∀ s : List Char, (k s).isSome → (runMany p s k).isSome := by
    intro s hs
    cases s with
    | nil => exact hs
    | cons c s =>
      unfold runMany
      split
      · cases runMany p s k with
        | none => exact hs
        | some y => rfl
      · exact hs
  induction a with
  | nil => exact hstop t hk
  | cons c a ih =>
    have hrest := ih fun d hd => ha d (List.mem_cons_of_mem c hd)
    rw [List.cons_append]
    unfold runMany
    rw [if_pos (ha c List.mem_cons_self)]
    obtain ⟨y, hy⟩ := Option.isSome_iff_exists.mp hrest
    rw [hy]
    rfl

/-- The longest run wins if the rest goes through. -/
theorem runMany_greedy {p : Char → Bool} {a t : List Char} {k : List Char → Option α} {x : α}
    (ha : ∀ c ∈ a, p c = true) (ht : ∀ c ∈ t.head?, p c = false) (hk : k t = some x) :
    runMany p (a ++ t) k = some x := by
  induction a with
  | nil =>
    cases t with
    | nil => exact hk
    | cons c t =>
      have hc : p c = false := ht c rfl
      show runMany p (c :: t) k = some x
      unfold runMany
      rw [hc]
      exact hk
  | cons c a ih =>
    rw [List.cons_append]
    unfold runMany
    rw [if_pos (ha c List.mem_cons_self), ih fun d hd => ha d (List.mem_cons_of_mem c hd)]
    rfl

/-- The matcher only takes what the pattern can match. -/
theorem run_some {r : Regex} {s : List Char} {caps : Captures}
    {k : List Char → Captures → Option α} {x : α} (h : run r s caps k = some x) :
    ∃ t caps', Eats r s caps t caps' ∧ k t caps' = some x := by
  induction r generalizing s caps k with
  | eps => exact ⟨s, caps, ⟨rfl, rfl⟩, h⟩
  | one p =>
    cases s with
    | nil => cases h
    | cons c s =>
      unfold run at h
      split at h
      · next hc => exact ⟨s, caps, ⟨c, rfl, hc, rfl⟩, h⟩
      · cases h
  | many p =>
    obtain ⟨a, t, heq, ha, hk⟩ := runMany_some h
    exact ⟨t, caps, ⟨a, heq, ha, rfl⟩, hk⟩
  | opt r ih =>
    unfold run at h
    rcases orElse_eq_some_iff.mp h with hr | ⟨-, hk⟩
    · obtain ⟨t, caps', heats, hk⟩ := ih hr
      exact ⟨t, caps', Or.inl heats, hk⟩
    · exact ⟨s, caps, Or.inr ⟨rfl, rfl⟩, hk⟩
  | seq r q ihr ihq =>
    obtain ⟨u, caps'', hr, hrest⟩ := ihr h
    obtain ⟨t, caps', hq, hk⟩ := ihq hrest
    exact ⟨t, caps', ⟨u, caps'', hr, hq⟩, hk⟩
  | alt r q ihr ihq =>
    unfold run at h
    rcases orElse_eq_some_iff.mp h with hr | ⟨-, hq⟩
    · obtain ⟨t, caps', heats, hk⟩ := ihr hr
      exact ⟨t, caps', Or.inl heats, hk⟩
    · obtain ⟨t, caps', heats, hk⟩ := ihq hq
      exact ⟨t, caps', Or.inr heats, hk⟩
  | group n r ih =>
    obtain ⟨t, caps', heats, hk⟩ := ih h
    exact ⟨t, _, ⟨caps', heats, rfl⟩, hk⟩

/-- Backtracking tries every way to match. -/
theorem run_isSome {r : Regex} {s t : List Char} {caps caps' : Captures}
    {k : List Char → Captures → Option α} (h : Eats r s caps t caps') (hk : (k t caps').isSome) :
    (run r s caps k).isSome := by
  induction r generalizing s t caps caps' k with
  | eps =>
    obtain ⟨rfl, rfl⟩ := h
    exact hk
  | one p =>
    obtain ⟨c, rfl, hc, rfl⟩ := h
    unfold run
    rw [if_pos hc]
    exact hk
  | many p =>
    obtain ⟨a, rfl, ha, rfl⟩ := h
    exact runMany_isSome ha hk
  | opt r ih =>
    unfold run
    rw [isSome_orElse_iff]
    rcases h with hr | ⟨rfl, rfl⟩
    · exact Or.inl (ih hr hk)
    · exact Or.inr hk
  | seq r q ihr ihq =>
    obtain ⟨u, caps'', hr, hq⟩ := h
    exact ihr hr (ihq hq hk)
  | alt r q ihr ihq =>
    unfold run
    rw [isSome_orElse_iff]
    rcases h with hr | hq
    · exact Or.inl (ihr hr hk)
    · exact Or.inr (ihq hq hk)
  | group n r ih =>
    obtain ⟨caps'', hr, rfl⟩ := h
    exact ih hr hk

end

/-! ## The way of a match that never backtracks -/

section
variable {α : Type} {p : Char → Bool} {a t : List Char} {caps : Captures}
  {k : List Char → Captures → Option α} {x : α}

theorem run_seq (r q : Regex) (s : List Char) : run (seq r q) s caps k =
    run r s caps fun t caps' => run q t caps' k := rfl

theorem run_group (n : ℕ) (r : Regex) (s : List Char) : run (group n r) s caps k =
    run r s caps fun t caps' => k t ((n, s.take (s.length - t.length)) :: caps') := rfl

theorem run_one {c : Char} (hc : p c = true) (hk : k t caps = some x) :
    run (one p) (c :: t) caps k = some x := by
  unfold run
  rw [if_pos hc]
  exact hk

theorem run_many (ha : ∀ c ∈ a, p c = true) (ht : ∀ c ∈ t.head?, p c = false)
    (hk : k t caps = some x) : run (many p) (a ++ t) caps k = some x :=
  runMany_greedy ha ht hk

theorem run_some1 (hne : a ≠ []) (ha : ∀ c ∈ a, p c = true) (ht : ∀ c ∈ t.head?, p c = false)
    (hk : k t caps = some x) : run (some1 p) (a ++ t) caps k = some x := by
  cases a with
  | nil => exact absurd rfl hne
  | cons c a =>
    unfold some1
    rw [run_seq]
    refine run_one (ha c List.mem_cons_self) ?_
    exact run_many (fun d hd => ha d (List.mem_cons_of_mem c hd)) ht hk

theorem run_literal (text : String) (t : List Char) (caps : Captures)
    (k : List Char → Captures → Option α) :
    run (literal text) (text.toList ++ t) caps k = k t caps := by
  unfold literal
  induction text.toList with
  | nil => rfl
  | cons c cs ih =>
    show run (seq (lit c) _) (c :: (cs ++ t)) caps k = k t caps
    rw [run_seq, ← ih]
    exact if_pos (beq_self_eq_true c)

theorem run_alt {r : Regex} (q : Regex) {s : List Char} (h : run r s caps k = some x) :
    run (alt r q) s caps k = some x := by
  unfold run
  rw [h]
  rfl

theorem run_alt_skip {r : Regex} (q : Regex) {s : List Char} (h : run r s caps k = none) :
    run (alt r q) s caps k = run q s caps k := by
  conv_lhs => unfold run
  rw [h]
  rfl

theorem run_opt {r : Regex} {s : List Char} (h : run r s caps k = some x) :
    run (opt r) s caps k = some x := by
  unfold run
  rw [h]
  rfl

theorem run_opt_skip {c : Char} (hc : p c = false) (hk : k (c :: t) caps = some x) :
    run (opt (one p)) (c :: t) caps k = some x := by
  have hnone : run (one p) (c :: t) caps k = none := by
    unfold run
    rw [hc]
    rfl
  unfold run
  rw [hnone]
  exact hk

/-- The text of a group is what its pattern took. -/
theorem take_matched (a t : List Char) : (a ++ t).take ((a ++ t).length - t.length) = a := by
  rw [List.length_append, Nat.add_sub_cancel]
  exact List.take_left

end

theorem matchAt_eats {r : Regex} {s t : List Char} {caps : Captures}
    (h : matchAt r s = some (caps, t)) : Eats r s [] t caps := by
  obtain ⟨u, caps', heats, hk⟩ := run_some h
  obtain ⟨rfl, rfl⟩ := Prod.mk.inj (Option.some.inj hk)
  exact heats

theorem matchAt_eq_none_iff {r : Regex} {s : List Char} :
    matchAt r s = none ↔ ∀ t caps, ¬ Eats r s [] t caps := by
  constructor
  · intro h t caps heats
    have hsome : (matchAt r s).isSome := run_isSome heats rfl
    rw [h] at hsome
    cases hsome
  · intro h
    cases hmatch : matchAt r s with
    | none => rfl
    | some found => exact absurd (matchAt_eats hmatch) (h _ _)

theorem search_eq_none_iff {r : Regex} {s : List Char} :
    search r s = none ↔ ∀ u, u <:+ s → matchAt r u = none := by
  induction s with
  | nil =>
    unfold search
    rw [Option.map_eq_none_iff]
    simp
  | cons c s ih =>
    unfold search
    simp only [List.suffix_cons_iff, forall_eq_or_imp, ← ih]
    cases matchAt r (c :: s) with
    | none => simp
    | some found => simp

theorem search_cons_eq_none_iff {r : Regex} {c : Char} {s : List Char} :
    search r (c :: s) = none ↔ matchAt r (c :: s) = none ∧ search r s = none := by
  cases hmatch : matchAt r (c :: s) with
  | none => simp only [search, hmatch, true_and]
  | some found =>
    obtain ⟨caps, t⟩ := found
    simp [search, hmatch]

/-- A search in two parts: the matches that begin in the first, and those in the second. -/
theorem search_append_eq_none_iff {r : Regex} {a s : List Char} :
    search r (a ++ s) = none ↔
      (∀ u, u <:+ a → u ≠ [] → matchAt r (u ++ s) = none) ∧ search r s = none := by
  rw [search_eq_none_iff, search_eq_none_iff]
  constructor
  · intro h
    constructor
    · rintro u ⟨b, rfl⟩ -
      exact h _ ⟨b, by rw [List.append_assoc]⟩
    · exact fun u hu => h u (hu.trans (List.suffix_append a s))
  · rintro ⟨hfirst, hsecond⟩ u hu
    rcases List.suffix_or_suffix_of_suffix hu (List.suffix_append a s) with hin | ⟨v, rfl⟩
    · exact hsecond u hin
    · have hv : v <:+ a := List.suffix_append_self_iff.mp hu
      by_cases hnil : v = []
      · subst hnil
        exact hsecond s (List.suffix_refl s)
      · exact hfirst v hv hnil

/-- Where the same character is met for the first time, two texts are cut alike. -/
theorem cut_at {a b s t : List Char} {c : Char} (hc : c ∉ b) (h : a ++ c :: s = b ++ t) :
    ∃ m, a = b ++ m ∧ t = m ++ c :: s := by
  rcases List.append_eq_append_iff.mp h with ⟨m, hb, hs⟩ | ⟨m, ha, ht⟩
  · cases m with
    | nil => exact ⟨[], by simpa using hb.symm, by simpa using hs.symm⟩
    | cons d m =>
      obtain ⟨rfl, -⟩ := List.cons.inj hs
      exact absurd (hb ▸ List.mem_append_right a List.mem_cons_self) hc
  · exact ⟨m, ha, ht⟩

/-- Text that ends where nothing behind it goes on. -/
theorem within {a s u t : List Char} {c : Char} (hc : c ∉ t) (h : u ++ t = a ++ c :: s) :
    ∃ m, u = a ++ c :: m := by
  rcases List.append_eq_append_iff.mp h with ⟨m, -, ht⟩ | ⟨m, hu, hs⟩
  · exact absurd (ht ▸ List.mem_append_right m List.mem_cons_self) hc
  · cases m with
    | nil =>
      rw [List.nil_append] at hs
      exact absurd (hs ▸ List.mem_cons_self) hc
    | cons d m =>
      obtain ⟨rfl, -⟩ := List.cons.inj hs
      exact ⟨m, hu⟩

/-- Texts up to the first place of a character are cut alike, on both sides. -/
theorem cut_first {a b s t : List Char} {c : Char} (ha : c ∉ a) (hb : c ∉ b)
    (h : a ++ c :: s = b ++ c :: t) : a = b ∧ s = t := by
  obtain ⟨m, rfl, ht⟩ := cut_at hb h
  cases m with
  | nil => exact ⟨List.append_nil b, (List.cons.inj ht).2.symm⟩
  | cons d m =>
    obtain ⟨rfl, -⟩ := List.cons.inj ht
    exact absurd (List.mem_append_right b List.mem_cons_self) ha

/-- Two ways to end a text with the same delimiter: the texts are the same, or the longer one holds
the delimiter too, and goes on with what stands behind the shorter. -/
theorem cut_delimiter {a b e s t : List Char} {c : Char} (he : c ∉ e)
    (h : a ++ c :: (e ++ s) = b ++ c :: (e ++ t)) :
    (a = b ∧ s = t) ∨ (∃ u, b = a ++ c :: (e ++ u) ∧ s = u ++ c :: (e ++ t)) ∨
      ∃ u, a = b ++ c :: (e ++ u) ∧ t = u ++ c :: (e ++ s) := by
  have hlonger : ∀ {m s t : List Char}, m ≠ [] → c :: (e ++ s) = m ++ c :: (e ++ t) →
      ∃ u, m = c :: (e ++ u) ∧ s = u ++ c :: (e ++ t) := by
    intro m s t hne heq
    cases m with
    | nil => exact absurd rfl hne
    | cons d m =>
      obtain ⟨rfl, hbehind⟩ := List.cons.inj heq
      obtain ⟨u, rfl, hs⟩ := cut_at he hbehind.symm
      exact ⟨u, rfl, hs⟩
  rcases List.append_eq_append_iff.mp h with ⟨m, rfl, hs⟩ | ⟨m, rfl, ht⟩
  · by_cases hm : m = []
    · subst hm
      rw [List.nil_append] at hs
      exact Or.inl ⟨(List.append_nil a).symm, List.append_cancel_left (List.cons.inj hs).2⟩
    · obtain ⟨u, rfl, hu⟩ := hlonger hm hs
      exact Or.inr (Or.inl ⟨u, rfl, hu⟩)
  · by_cases hm : m = []
    · subst hm
      rw [List.nil_append] at ht
      exact Or.inl ⟨List.append_nil b, (List.append_cancel_left (List.cons.inj ht).2).symm⟩
    · obtain ⟨u, rfl, hu⟩ := hlonger hm ht
      exact Or.inr (Or.inr ⟨u, rfl, hu⟩)

theorem search_of_matchAt {r : Regex} {s t : List Char} {caps : Captures}
    (h : matchAt r s = some (caps, t)) : search r s = some caps := by
  cases s with
  | nil =>
    unfold search
    rw [h]
    rfl
  | cons c s => simp only [search, h]

theorem search_some {r : Regex} {s : List Char} {caps : Captures} (h : search r s = some caps) :
    ∃ u t, matchAt r u = some (caps, t) := by
  induction s with
  | nil =>
    obtain ⟨found, hfound, rfl⟩ := Option.map_eq_some_iff.mp h
    exact ⟨[], found.2, hfound⟩
  | cons c s ih =>
    cases hmatch : matchAt r (c :: s) with
    | none =>
      simp only [search, hmatch] at h
      exact ih h
    | some found =>
      simp only [search, hmatch, Option.some.injEq] at h
      exact ⟨c :: s, found.2, by rw [hmatch, ← h]⟩

theorem eats_some1 {p : Char → Bool} {s t : List Char} {caps caps' : Captures} :
    Eats (some1 p) s caps t caps' ↔
      ∃ a, a ≠ [] ∧ s = a ++ t ∧ (∀ c ∈ a, p c = true) ∧ caps' = caps := by
  constructor
  · rintro ⟨u, caps'', ⟨c, rfl, hc, rfl⟩, a, rfl, ha, rfl⟩
    refine ⟨c :: a, List.cons_ne_nil c a, rfl, ?_, rfl⟩
    exact List.forall_mem_cons.mpr ⟨hc, ha⟩
  · rintro ⟨a, hne, rfl, ha, rfl⟩
    cases a with
    | nil => exact absurd rfl hne
    | cons c a =>
      obtain ⟨hc, ha⟩ := List.forall_mem_cons.mp ha
      exact ⟨a ++ t, caps', ⟨c, rfl, hc, rfl⟩, a, rfl, ha, rfl⟩

theorem eats_opt_one {p : Char → Bool} {s t : List Char} {caps caps' : Captures} :
    Eats (opt (one p)) s caps t caps' ↔
      ∃ a, (a = [] ∨ ∃ c, p c = true ∧ a = [c]) ∧ s = a ++ t ∧ caps' = caps := by
  constructor
  · rintro (⟨c, rfl, hc, rfl⟩ | ⟨rfl, rfl⟩)
    · exact ⟨[c], Or.inr ⟨c, hc, rfl⟩, rfl, rfl⟩
    · exact ⟨[], Or.inl rfl, rfl, rfl⟩
  · rintro ⟨a, rfl | ⟨c, hc, rfl⟩, rfl, rfl⟩
    · exact Or.inr ⟨rfl, rfl⟩
    · exact Or.inl ⟨c, rfl, hc, rfl⟩

theorem eats_literal {text : String} {s t : List Char} {caps caps' : Captures} :
    Eats (literal text) s caps t caps' ↔ s = text.toList ++ t ∧ caps' = caps := by
  unfold literal
  induction text.toList generalizing s with
  | nil =>
    constructor
    · rintro ⟨rfl, rfl⟩
      exact ⟨rfl, rfl⟩
    · rintro ⟨rfl, rfl⟩
      exact ⟨rfl, rfl⟩
  | cons c cs ih =>
    constructor
    · rintro ⟨u, caps'', ⟨d, rfl, hd, rfl⟩, hrest⟩
      obtain ⟨rfl, rfl⟩ := ih.mp hrest
      obtain rfl := eq_of_beq hd
      exact ⟨rfl, rfl⟩
    · rintro ⟨rfl, rfl⟩
      exact ⟨cs ++ t, caps', ⟨c, rfl, beq_self_eq_true c, rfl⟩, ih.mpr ⟨rfl, rfl⟩⟩

/-! ## `finditer` -/

theorem findAll_none {r : Regex} {c : Char} {s : List Char} (h : matchAt r (c :: s) = none) :
    findAll r 0 (c :: s) = findAll r 0 s := by
  simp only [findAll, h]

theorem findAll_some {r : Regex} {c : Char} {s rest : List Char} {caps : Captures}
    (h : matchAt r (c :: s) = some (caps, rest)) :
    findAll r 0 (c :: s) = caps :: findAll r (s.length - rest.length) s := by
  simp only [findAll, h]

/-- `finditer` finds nothing exactly if `search` does not. -/
theorem findAll_eq_nil_iff {r : Regex} (h : matchAt r [] = none) {s : List Char} :
    findAll r 0 s = [] ↔ search r s = none := by
  induction s with
  | nil =>
    unfold findAll search
    simp [h]
  | cons c s ih =>
    rw [search_cons_eq_none_iff]
    cases hmatch : matchAt r (c :: s) with
    | none => simpa [findAll_none hmatch] using ih
    | some found => simp [findAll_some hmatch]

theorem findAll_skip (r : Regex) (n : ℕ) (s : List Char) :
    findAll r n s = findAll r 0 (s.drop n) := by
  induction s generalizing n with
  | nil =>
    rw [List.drop_nil]
    unfold findAll
    rfl
  | cons c s ih =>
    cases n with
    | zero => rfl
    | succ n => exact ih n

/-- Where no match begins, the search goes on. -/
theorem findAll_append {r : Regex} {a : List Char} (s : List Char)
    (h : ∀ c ∈ a, ∀ u, matchAt r (c :: u) = none) : findAll r 0 (a ++ s) = findAll r 0 s := by
  induction a with
  | nil => rfl
  | cons c a ih =>
    rw [List.cons_append, findAll_none (h c List.mem_cons_self (a ++ s))]
    exact ih fun d hd => h d (List.mem_cons_of_mem c hd)

/-- The search goes on behind a match. -/
theorem findAll_match {r : Regex} {c : Char} {a s : List Char} {caps : Captures}
    (h : matchAt r (c :: (a ++ s)) = some (caps, s)) :
    findAll r 0 (c :: (a ++ s)) = caps :: findAll r 0 s := by
  have hskip : (a ++ s).length - s.length = a.length := by
    rw [List.length_append]
    omega
  rw [findAll_some h, findAll_skip, hskip, List.drop_left]

/-- Every match of `finditer` is a match somewhere in the text. -/
theorem mem_findAll {r : Regex} {s : List Char} {caps : Captures} {n : ℕ}
    (h : caps ∈ findAll r n s) : ∃ u t, matchAt r u = some (caps, t) := by
  induction s generalizing n with
  | nil =>
    unfold findAll at h
    exact absurd h List.not_mem_nil
  | cons c s ih =>
    cases n with
    | succ n => exact ih h
    | zero =>
      cases hmatch : matchAt r (c :: s) with
      | none =>
        rw [findAll_none hmatch] at h
        exact ih h
      | some found =>
        rw [findAll_some hmatch] at h
        rcases List.mem_cons.mp h with rfl | h
        · exact ⟨_, _, hmatch⟩
        · exact ih h

/-! ## `x([p]+)` -/

def marker (x : Char) (p : Char → Bool) : Regex := seq (lit x) (group 1 (some1 p))

/-- The longest runs of `p` that stand right behind an `x`. -/
def runsAfter (x : Char) (p : Char → Bool) : List Char → List (List Char)
  | [] => []
  | c :: s =>
    if c = x ∧ s.takeWhile p ≠ [] then s.takeWhile p :: runsAfter x p s else runsAfter x p s

variable {x : Char} {p : Char → Bool}

theorem runsAfter_cons (c : Char) (s : List Char) : runsAfter x p (c :: s) =
    if c = x ∧ s.takeWhile p ≠ [] then s.takeWhile p :: runsAfter x p s else runsAfter x p s :=
  rfl

theorem mem_runsAfter {w s : List Char} (h : w ∈ runsAfter x p s) :
    w ≠ [] ∧ ∀ c ∈ w, p c = true := by
  induction s with
  | nil => exact absurd h List.not_mem_nil
  | cons c s ih =>
    rw [runsAfter_cons] at h
    split at h
    · next hc =>
      rcases List.mem_cons.mp h with rfl | h
      · exact ⟨hc.2, fun d hd => List.mem_takeWhile_imp hd⟩
      · exact ih h
    · exact ih h

theorem runsAfter_of_not_mem {a : List Char} (h : x ∉ a) (s : List Char) :
    runsAfter x p (a ++ s) = runsAfter x p s := by
  induction a with
  | nil => rfl
  | cons c a ih =>
    rw [List.mem_cons, not_or] at h
    rw [List.cons_append, runsAfter_cons, if_neg fun hc => h.1 hc.1.symm]
    exact ih h.2

theorem runsAfter_eq_nil {s : List Char} (h : x ∉ s) : runsAfter x p s = [] := by
  have hskip := runsAfter_of_not_mem (p := p) h []
  rw [List.append_nil] at hskip
  exact hskip

/-- What follows a text does not prolong a run at its head, unless it goes on with `p`. -/
theorem takeWhile_append_head {s : List Char} (hs : ∀ c ∈ s.head?, p c = false) (a : List Char) :
    (a ++ s).takeWhile p = a.takeWhile p := by
  induction a with
  | nil =>
    cases s with
    | nil => rfl
    | cons c s =>
      rw [List.nil_append, List.takeWhile_cons, hs c rfl]
      rfl
  | cons c a ih => rw [List.cons_append, List.takeWhile_cons, List.takeWhile_cons, ih]

theorem takeWhile_run {a s : List Char} (ha : ∀ c ∈ a, p c = true)
    (hs : ∀ c ∈ s.head?, p c = false) : (a ++ s).takeWhile p = a := by
  have hall : (a ++ []).takeWhile p = a ++ [].takeWhile p := List.takeWhile_append_of_pos ha
  rw [List.append_nil, List.takeWhile_nil, List.append_nil] at hall
  rw [takeWhile_append_head hs, hall]

theorem takeWhile_barrier {b : Char} (hb : p b = false) (a s : List Char) :
    (a ++ b :: s).takeWhile p = a.takeWhile p :=
  takeWhile_append_head (forall_mem_head hb) a

/-- No run crosses a character outside of `p`. -/
theorem runsAfter_barrier {b : Char} (hx : b ≠ x) (hb : p b = false) (a s : List Char) :
    runsAfter x p (a ++ b :: s) = runsAfter x p a ++ runsAfter x p s := by
  induction a with
  | nil =>
    show runsAfter x p (b :: s) = runsAfter x p s
    rw [runsAfter_cons, if_neg fun h => hx h.1]
  | cons c a ih =>
    rw [List.cons_append, runsAfter_cons, runsAfter_cons, takeWhile_barrier hb, ih]
    split
    · rfl
    · rfl

theorem head?_dropWhile {s : List Char} {c : Char} (h : c ∈ (s.dropWhile p).head?) :
    p c = false := by
  have hnot := List.head?_dropWhile_not p s
  rw [Option.mem_def.mp h] at hnot
  exact hnot

theorem matchAt_marker_run {a t : List Char} (hne : a ≠ []) (ha : ∀ c ∈ a, p c = true)
    (ht : ∀ c ∈ t.head?, p c = false) :
    matchAt (marker x p) (x :: (a ++ t)) = some ([(1, a)], t) := by
  unfold matchAt marker lit
  rw [run_seq]
  refine run_one (beq_self_eq_true x) ?_
  rw [run_group]
  refine run_some1 hne ha ht ?_
  rw [take_matched]

theorem matchAt_marker (x : Char) (p : Char → Bool) (c : Char) (s : List Char) :
    matchAt (marker x p) (c :: s) =
      if c = x ∧ s.takeWhile p ≠ [] then some ([(1, s.takeWhile p)], s.dropWhile p) else none := by
  split
  · next h =>
    obtain ⟨rfl, hne⟩ := h
    have hsplit : s.takeWhile p ++ s.dropWhile p = s := List.takeWhile_append_dropWhile
    have hmatch : matchAt (marker c p) (c :: (s.takeWhile p ++ s.dropWhile p)) =
        some ([(1, s.takeWhile p)], s.dropWhile p) :=
      matchAt_marker_run hne (fun d hd => List.mem_takeWhile_imp hd) fun d hd => head?_dropWhile hd
    rw [hsplit] at hmatch
    exact hmatch
  · next h =>
    rw [matchAt_eq_none_iff]
    rintro t caps ⟨u, caps₁, ⟨d, heq, hd, -⟩, caps₂, ⟨v, caps₃, ⟨e, rfl, he, -⟩, -⟩, -⟩
    obtain ⟨rfl, rfl⟩ := List.cons.inj heq
    refine h ⟨eq_of_beq hd, ?_⟩
    rw [List.takeWhile_cons, he]
    exact List.cons_ne_nil _ _

/-- `re.search` of a marker finds the first run. -/
theorem search_marker (x : Char) (p : Char → Bool) (s : List Char) :
    (search (marker x p) s).bind (fun caps => captured caps 1) =
      (runsAfter x p s).head?.map String.ofList := by
  induction s with
  | nil => rfl
  | cons c s ih =>
    unfold search
    rw [matchAt_marker, runsAfter_cons]
    by_cases hc : c = x ∧ s.takeWhile p ≠ []
    · rw [if_pos hc, if_pos hc]
      rfl
    · rw [if_neg hc, if_neg hc]
      exact ih

theorem findAll_marker_skip (hx : p x = false) (n : ℕ) (s : List Char) (hn : x ∉ s.take n) :
    (findAll (marker x p) n s).filterMap (fun caps => captured caps 1) =
      (runsAfter x p s).map String.ofList := by
  induction s generalizing n with
  | nil => rfl
  | cons c s ih =>
    rw [runsAfter_cons]
    cases n with
    | succ n =>
      rw [List.take_succ_cons, List.mem_cons, not_or] at hn
      rw [if_neg fun hc => hn.1 hc.1.symm]
      exact ih n hn.2
    | zero =>
      have hmatch := matchAt_marker x p c s
      by_cases hc : c = x ∧ s.takeWhile p ≠ []
      · rw [if_pos hc] at hmatch ⊢
        have hlength := congrArg List.length (List.takeWhile_append_dropWhile (p := p) (l := s))
        rw [List.length_append] at hlength
        have hrun : s.take (s.length - (s.dropWhile p).length) = s.takeWhile p := by
          rw [← hlength, Nat.add_sub_cancel]
          exact List.prefix_iff_eq_take.mp (List.takeWhile_prefix p) |>.symm
        have hnot : x ∉ s.takeWhile p := fun hmem => by
          have hpx := List.mem_takeWhile_imp hmem
          rw [hx] at hpx
          cases hpx
        rw [findAll_some hmatch, List.map_cons, ← ih _ (hrun ▸ hnot)]
        rfl
      · rw [if_neg hc] at hmatch ⊢
        rw [findAll_none hmatch]
        exact ih 0 (by simp)

/-- `re.findall` of a marker finds the runs, if a run cannot hold the mark. -/
theorem findAll_marker (hx : p x = false) (s : List Char) :
    (findAll (marker x p) 0 s).filterMap (fun caps => captured caps 1) =
      (runsAfter x p s).map String.ofList :=
  findAll_marker_skip hx 0 s (by simp)

end Regex

end AegisPlatform.Foundations
