import Mathlib.Logic.Basic
import Mathlib.Data.List.Basic

/-! # Runs of a labelled step relation

A system is a relation `step s l t`: in state `s` the action `l` may lead to `t`. A run is a
finite list of labelled steps. The rules below are the only inductions over runs the
development makes: what holds at the start and is kept by a step holds in every state
reached, and what a step keeps once it holds is never lost again.

`Under guard step` is the same system with the steps restricted to those whose label is
allowed in the state they start from. A statement about every run of `Under guard step` is a
statement about every run of `step` whose steps all meet the guard.
-/

namespace AegisPlatform.Foundations
set_option autoImplicit false
set_option maxHeartbeats 250000

variable {S L : Type}

/-- `Run step s ls t`: the actions `ls`, in this order, lead from `s` to `t`. -/
inductive Run (step : S → L → S → Prop) : S → List L → S → Prop
  | nil (s : S) : Run step s [] s
  | snoc {s t u : S} {ls : List L} {l : L} :
      Run step s ls t → step t l u → Run step s (ls ++ [l]) u

/-- The steps of `step` whose label `guard` allows in the state they start from. -/
def Under (guard : S → L → Prop) (step : S → L → S → Prop) : S → L → S → Prop :=
  fun s l t => guard s l ∧ step s l t

/-- The step relation of a partial next-state function. -/
def ofNext (next : S → L → Option S) : S → L → S → Prop :=
  fun s l t => next s l = some t

namespace Run

variable {step : S → L → S → Prop}

theorem single {s t : S} {l : L} (h : step s l t) : Run step s [l] t :=
  Run.snoc (Run.nil s) h

/-- A predicate kept by every step holds in every state a run reaches. -/
theorem invariant {I : S → Prop} (keep : ∀ s l t, I s → step s l t → I t)
    {s t : S} {ls : List L} (h : Run step s ls t) (hs : I s) : I t := by
  induction h with
  | nil => exact hs
  | snoc _ hlast ih => exact keep _ _ _ ih hlast

/-- With an invariant `I` at hand, a predicate every step keeps once it holds is stable. -/
theorem stable {I Q : S → Prop} (keepI : ∀ s l t, I s → step s l t → I t)
    (keepQ : ∀ s l t, I s → Q s → step s l t → Q t)
    {s t : S} {ls : List L} (h : Run step s ls t) (hi : I s) (hq : Q s) : Q t := by
  have both : I t ∧ Q t := by
    refine h.invariant (I := fun s => I s ∧ Q s) ?_ ⟨hi, hq⟩
    intro s l t hs hstep
    exact ⟨keepI s l t hs.1 hstep, keepQ s l t hs.1 hs.2 hstep⟩
  exact both.2

theorem trans {s t u : S} {ls ms : List L} (h : Run step s ls t) (k : Run step t ms u) :
    Run step s (ls ++ ms) u := by
  induction k with
  | nil => simpa using h
  | snoc _ hlast ih =>
    rw [← List.append_assoc]
    exact Run.snoc ih hlast

/-- More steps, more runs. -/
theorem mono {step' : S → L → S → Prop} (hle : ∀ s l t, step s l t → step' s l t) {s t : S}
    {ls : List L} (h : Run step s ls t) : Run step' s ls t := by
  induction h with
  | nil => exact Run.nil _
  | snoc _ hlast ih => exact Run.snoc ih (hle _ _ _ hlast)

theorem of_under {guard : S → L → Prop} {s t : S} {ls : List L} (h : Run (Under guard step) s ls t) :
    Run step s ls t := h.mono fun _ _ _ hlast => hlast.2

theorem nil_iff {s t : S} : Run step s [] t ↔ s = t := by
  refine ⟨fun h => ?_, fun h => h ▸ Run.nil s⟩
  generalize hls : ([] : List L) = ls at h
  cases h with
  | nil => rfl
  | snoc _ _ => simp at hls

/-- The last step of a run, and the run before it. -/
theorem snoc_iff {s u : S} {ls : List L} {l : L} :
    Run step s (ls ++ [l]) u ↔ ∃ t, Run step s ls t ∧ step t l u := by
  refine ⟨fun h => ?_, fun ⟨t, ht, hlast⟩ => Run.snoc ht hlast⟩
  generalize hms : ls ++ [l] = ms at h
  cases h with
  | nil => simp at hms
  | snoc hbefore hlast =>
    obtain ⟨rfl, hl⟩ := List.append_inj' hms rfl
    obtain rfl := List.singleton_inj.mp hl
    exact ⟨_, hbefore, hlast⟩

/-- A next-state function leads to one state. -/
theorem functional {next : S → L → Option S} {s t t' : S} {ls : List L}
    (h : Run (ofNext next) s ls t) (k : Run (ofNext next) s ls t') : t = t' := by
  induction h generalizing t' with
  | nil => exact nil_iff.mp k
  | snoc _ hlast ih =>
    obtain ⟨m, hm, hlast'⟩ := snoc_iff.mp k
    obtain rfl := ih hm
    exact Option.some.inj (hlast.symm.trans hlast')

/-- A relation that every step keeps, with some steps of another system on its side, relates every
state a run reaches to one that system reaches. -/
theorem simulated {T M : Type} {step' : T → M → T → Prop} {R : S → T → Prop}
    (keep : ∀ s l s' t, R s t → step s l s' → ∃ ms t', Run step' t ms t' ∧ R s' t')
    {s s' : S} {ls : List L} {t : T} (h : Run step s ls s') (hr : R s t) :
    ∃ ms t', Run step' t ms t' ∧ R s' t' := by
  induction h with
  | nil => exact ⟨[], t, Run.nil t, hr⟩
  | snoc _ hlast ih =>
    obtain ⟨ms, u, hrun, hu⟩ := ih
    obtain ⟨ns, v, hmore, hv⟩ := keep _ _ _ _ hu hlast
    exact ⟨ms ++ ns, v, hrun.trans hmore, hv⟩

/-- If every step is matched by one step of another system that carries its name, or by none, so is
every run: the names of the matched steps stand in the order of the run. -/
theorem collapsed {T M : Type} {step' : T → M → T → Prop} {R : S → T → Prop} (name : L → M)
    (keep : ∀ s l s' t, R s t → step s l s' → R s' t ∨ ∃ t', step' t (name l) t' ∧ R s' t')
    {s s' : S} {ls : List L} {t : T} (h : Run step s ls s') (hr : R s t) :
    ∃ ms t', ms.Sublist (ls.map name) ∧ Run step' t ms t' ∧ R s' t' := by
  induction h with
  | nil => exact ⟨[], t, List.nil_sublist _, Run.nil t, hr⟩
  | @snoc _ _ ls l _ hlast ih =>
    obtain ⟨ms, u, hsub, hrun, hu⟩ := ih
    rw [List.map_append]
    rcases keep _ _ _ _ hu hlast with hv | ⟨v, hmatch, hv⟩
    · exact ⟨ms, u, hsub.trans (List.sublist_append_left _ _), hrun, hv⟩
    · exact ⟨ms ++ [name l], v, hsub.append (List.Sublist.refl _), hrun.snoc hmatch, hv⟩

/-- Two guards that agree wherever an invariant holds allow the same runs. -/
theorem under_congr {guard guard' : S → L → Prop} {I : S → Prop}
    (keep : ∀ s l t, I s → step s l t → I t) (hiff : ∀ s l, I s → (guard s l ↔ guard' s l))
    {s t : S} {ls : List L} (hs : I s) (h : Run (Under guard step) s ls t) :
    Run (Under guard' step) s ls t := by
  induction h with
  | nil => exact Run.nil _
  | snoc hbefore hlast ih =>
    have hi := hbefore.invariant (fun u l v hu huv => keep u l v hu huv.2) hs
    exact Run.snoc ih ⟨(hiff _ _ hi).mp hlast.1, hlast.2⟩

end Run

/-! ## Executing a list of actions -/

def exec (next : S → L → Option S) : S → List L → Option S
  | s, [] => some s
  | s, l :: ls => (next s l).bind fun t => exec next t ls

theorem exec_run {next : S → L → Option S} {s t : S} {ls : List L}
    (h : exec next s ls = some t) : Run (ofNext next) s ls t := by
  induction ls generalizing s with
  | nil =>
    simp only [exec, Option.some.injEq] at h
    subst h
    exact Run.nil s
  | cons l ls ih =>
    simp only [exec, Option.bind_eq_some_iff] at h
    obtain ⟨m, hm, hrest⟩ := h
    exact (Run.single hm).trans (ih hrest)

theorem exec_append {next : S → L → Option S} {s : S} (ls ms : List L) :
    exec next s (ls ++ ms) = (exec next s ls).bind fun t => exec next t ms := by
  induction ls generalizing s with
  | nil => rfl
  | cons l ls ih =>
    simp only [List.cons_append, exec]
    cases next s l with
    | none => rfl
    | some t => exact ih

theorem run_exec {next : S → L → Option S} {s t : S} {ls : List L}
    (h : Run (ofNext next) s ls t) : exec next s ls = some t := by
  induction h with
  | nil => rfl
  | snoc _ hlast ih =>
    rw [exec_append, ih, Option.bind_some, exec, hlast]
    rfl

/-- The actions that are left without those `idle` calls idle where they are taken. -/
def effective (next : S → L → Option S) (idle : S → L → Bool) : S → List L → List L
  | _, [] => []
  | s, l :: ls =>
    if idle s l then effective next idle s ls
    else l :: ((next s l).elim [] fun t => effective next idle t ls)

/-- Actions that change nothing are not missed. -/
theorem exec_effective {next : S → L → Option S} {idle : S → L → Bool}
    (hidle : ∀ s l, idle s l = true → next s l = some s) {s t : S} {ls : List L}
    (h : exec next s ls = some t) : exec next s (effective next idle s ls) = some t := by
  induction ls generalizing s with
  | nil => exact h
  | cons l ls ih =>
    obtain ⟨m, hm, hrest⟩ := Option.bind_eq_some_iff.mp h
    unfold effective
    by_cases hl : idle s l = true
    · rw [if_pos hl]
      obtain rfl := Option.some.inj ((hidle s l hl).symm.trans hm)
      exact ih hrest
    · rw [if_neg hl, exec, hm, Option.elim_some, Option.bind_some]
      exact ih hrest

/-- What the actions of a run do, one after the other, by the name each has where it is taken. -/
def trace {M : Type} (next : S → L → Option S) (doing : S → L → Option M) : S → List L → List M
  | _, [] => []
  | s, l :: ls => (doing s l).toList ++ (next s l).elim [] fun t => trace next doing t ls

theorem trace_snoc {M : Type} {next : S → L → Option S} {doing : S → L → Option M} {s t : S}
    {ls : List L} (h : exec next s ls = some t) (l : L) :
    trace next doing s (ls ++ [l]) = trace next doing s ls ++ (doing t l).toList := by
  induction ls generalizing s with
  | nil =>
    obtain rfl := Option.some.inj h
    simp only [List.nil_append, trace]
    cases next s l <;> simp
  | cons a ls ih =>
    obtain ⟨m, hm, hrest⟩ := Option.bind_eq_some_iff.mp h
    simp only [List.cons_append, trace, hm, Option.elim_some, ih hrest, List.append_assoc]

/-- If every step is matched by the step of another system that it names, unless that one may be
skipped, so is every run: the matched steps are the trace, less some that may be skipped. -/
theorem Run.traced {T M : Type} {next : S → L → Option S} {guard : S → L → Prop}
    {step' : T → M → T → Prop} {R : S → T → Prop} (doing : S → L → Option M) (skips : M → Bool)
    (keep : ∀ s l s' t, R s t → guard s l → next s l = some s' →
      R s' t ∧ (∀ m ∈ doing s l, skips m = true) ∨ ∃ m ∈ doing s l, ∃ t', step' t m t' ∧ R s' t')
    {s s' : S} {ls : List L} {t : T} (h : Run (Under guard (ofNext next)) s ls s') (hr : R s t) :
    ∃ ms t', ms.Sublist (trace next doing s ls) ∧
      ms.filter (fun m => !skips m) = (trace next doing s ls).filter (fun m => !skips m) ∧
      Run step' t ms t' ∧ R s' t' := by
  induction h with
  | nil => exact ⟨[], t, List.nil_sublist _, rfl, Run.nil t, hr⟩
  | @snoc s₁ _ ls l hbefore hlast ih =>
    obtain ⟨ms, u, hsub, hkept, hrun, hu⟩ := ih
    rw [trace_snoc (run_exec hbefore.of_under)]
    rcases keep _ _ _ _ hu hlast.1 hlast.2 with ⟨hv, hskips⟩ | ⟨m, hm, v, hmatch, hv⟩
    · have hnone : ((doing s₁ l).toList.filter fun m => !skips m) = [] := by
        rw [List.filter_eq_nil_iff]
        intro m hm
        simp [hskips m (Option.mem_toList.mp hm)]
      refine ⟨ms, u, hsub.trans (List.sublist_append_left _ _), ?_, hrun, hv⟩
      rw [List.filter_append, hnone, List.append_nil, hkept]
    · have hname : (doing s₁ l).toList = [m] := by
        rw [Option.mem_def.mp hm]
        rfl
      refine ⟨ms ++ [m], v, hsub.append ?_, ?_, hrun.snoc hmatch, hv⟩
      · rw [hname]
      · rw [List.filter_append, List.filter_append, hkept, hname]

/-- `next` restricted to the actions a decidable guard allows. -/
def restrict (guard : S → L → Prop) [∀ s l, Decidable (guard s l)] (next : S → L → Option S) :
    S → L → Option S :=
  fun s l => if guard s l then next s l else none

theorem restrict_run {guard : S → L → Prop} [∀ s l, Decidable (guard s l)]
    {next : S → L → Option S} {s t : S} {ls : List L}
    (h : exec (restrict guard next) s ls = some t) : Run (Under guard (ofNext next)) s ls t := by
  have hr := exec_run h
  clear h
  induction hr with
  | nil => exact Run.nil _
  | snoc _ hlast ih =>
    refine Run.snoc ih ?_
    simp only [ofNext, restrict] at hlast
    split at hlast
    · next hg => exact ⟨hg, hlast⟩
    · cases hlast

/-! ## One of many sessions steps -/

section
variable {α : Type} {l : List α} {i j : ℕ} {a b c : α}

/-- The sessions before and after session `i`. -/
theorem around_getElem? (h : l[i]? = some a) :
    ∃ u v, l = u ++ a :: v ∧ (∀ b, l.set i b = u ++ b :: v) ∧ l.eraseIdx i = u ++ v := by
  obtain ⟨hlt, rfl⟩ := List.getElem?_eq_some_iff.mp h
  refine ⟨l.take i, l.drop (i + 1), ?_, ?_, List.eraseIdx_eq_take_drop_succ ..⟩
  · rw [List.getElem_cons_drop, List.take_append_drop]
  · intro b
    rw [List.set_eq_take_append_cons_drop, if_pos hlt]

/-- After session `i` moved to `b`, a session is that one or one of the old ones. -/
theorem getElem?_set_cases (h : (l.set i b)[j]? = some c) :
    (j = i ∧ c = b) ∨ (j ≠ i ∧ l[j]? = some c) := by
  rw [List.getElem?_set] at h
  by_cases hij : i = j
  · subst hij
    rw [if_pos rfl] at h
    split at h
    · exact Or.inl ⟨rfl, (Option.some.inj h).symm⟩
    · cases h
  · rw [if_neg hij] at h
    exact Or.inr ⟨Ne.symm hij, h⟩

/-- After one session more has begun, a session is that one or one of the old ones. -/
theorem getElem?_snoc_cases (h : (l ++ [b])[j]? = some c) : l[j]? = some c ∨ c = b := by
  rw [List.getElem?_append] at h
  split at h
  · exact Or.inl h
  · exact Or.inr (List.mem_singleton.mp (List.mem_of_getElem? h))

/-- What holds of every session, and of the one that moved, holds of every session. -/
theorem forall_set {Q : α → Prop} (h : ∀ (j : ℕ) c, l[j]? = some c → Q c) (hb : Q b) :
    ∀ (j : ℕ) c, (l.set i b)[j]? = some c → Q c := by
  intro j c hc
  rcases getElem?_set_cases hc with ⟨-, rfl⟩ | ⟨-, hold⟩
  · exact hb
  · exact h j c hold

/-- At most one session owns: the one that moved owned before, or nobody did. -/
theorem unique_set {owns : α → Prop}
    (h : ∀ (j k : ℕ) c d, l[j]? = some c → l[k]? = some d → owns c → owns d → j = k)
    (hi : l[i]? = some a)
    (hb : owns b → owns a ∨ ∀ (j : ℕ) c, l[j]? = some c → ¬ owns c) :
    ∀ (j k : ℕ) c d, (l.set i b)[j]? = some c → (l.set i b)[k]? = some d →
      owns c → owns d → j = k := by
  intro j k c d hc hd hoc hod
  rcases getElem?_set_cases hc with ⟨rfl, rfl⟩ | ⟨-, hc'⟩
  · rcases getElem?_set_cases hd with ⟨rfl, rfl⟩ | ⟨-, hd'⟩
    · rfl
    · rcases hb hoc with hoa | hnone
      · exact h j k a d hi hd' hoa hod
      · exact absurd hod (hnone k d hd')
  · rcases getElem?_set_cases hd with ⟨rfl, rfl⟩ | ⟨-, hd'⟩
    · rcases hb hod with hoa | hnone
      · exact h j k c a hc' hi hoc hoa
      · exact absurd hoc (hnone j c hc')
    · exact h j k c d hc' hd' hoc hod

end

end AegisPlatform.Foundations
