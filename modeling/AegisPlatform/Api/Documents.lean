import AegisPlatform.Api.Platform
import AegisPlatform.Api.StoredSuites
import AegisPlatform.Api.SuiteView
import AegisPlatform.Workers.Following

/-! # Suites as documents

What a suite is for its owner: a document that was sent once and edited since. The database keeps it
in two tables, steps as JSON, and gives it out by `order_index`. Whatever else goes on on the
platform, the rows of a suite are those of the document the accepted requests make.
-/

namespace AegisPlatform.Api
open Foundations Domain Core Db Services Workers
set_option autoImplicit false
set_option maxHeartbeats 250000

/-! ## Documents and edits -/

structure Document where
  name : String
  slug : String
  description : Option String
  targetBaseUrl : String
  tags : Option (List String)
  isActive : Bool
  ownerId : Uuid
  cases : List TestCaseCreate

inductive Edit
  | patch (data : SuiteUpdate)
  | addCase (data : TestCaseCreate)
  | delete

namespace Document

def sent (data : SuiteCreate) (ownerId : Uuid) : Document :=
  { name := data.name
    slug := data.slug
    description := data.description
    targetBaseUrl := data.targetBaseUrl
    tags := some data.tags
    isActive := true
    ownerId := ownerId
    cases := data.cases }

/-- A field that is set replaces the old one. No accepted patch sets a required field to null. -/
def edit (doc : Document) : Edit → Option Document
  | .patch data => some { doc with
      name := (data.name.getD none).getD doc.name
      description := data.description.getD doc.description
      targetBaseUrl := (data.targetBaseUrl.getD none).getD doc.targetBaseUrl
      tags := data.tags.getD doc.tags
      isActive := (data.isActive.getD none).getD doc.isActive }
  | .addCase data => some { doc with cases := doc.cases ++ [data] }
  | .delete => none

/-- The document after the edits, unless one of them deletes it. -/
def edited (doc : Document) (edits : List Edit) : Option Document := edits.foldlM edit doc

/-- The cases as they may be found: by `order_index`, which need not tell them apart. -/
def InOrder (doc : Document) (ordered : List TestCaseCreate) : Prop :=
  OrderBy (fun c : TestCaseCreate => OrderDual.toDual c.orderIndex) doc.cases ordered

end Document

/-! ## What is stored of a document -/

def contentOf (case : TestCase) : String × ℤ × List Json := (case.name, case.orderIndex, case.steps)

def dumpOf (data : TestCaseCreate) : String × ℤ × List Json :=
  (data.name, data.orderIndex, data.steps.map StepSpec.modelDump)

structure Document.Fits (doc : Document) (suite : TestSuite) : Prop where
  name : suite.name = doc.name
  slug : suite.slug = doc.slug
  description : suite.description = doc.description
  targetBaseUrl : suite.targetBaseUrl = doc.targetBaseUrl
  tags : suite.tags = doc.tags
  isActive : suite.isActive = doc.isActive
  ownerId : suite.ownerId = doc.ownerId

def ownCases (db : Database) (suiteId : Uuid) : List TestCase :=
  db.cases.rows.filter fun c => c.suiteId == suiteId

/-- The rows of the suite are those of the document, or there are none any more. -/
def Represents (db : Database) (suiteId : Uuid) : Option Document → Prop
  | none => db.suites.Gone suiteId
  | some doc => ∃ suite, db.suites.get? suiteId = some suite ∧ doc.Fits suite ∧
      (ownCases db suiteId).map contentOf = doc.cases.map dumpOf

section
variable {db db' : Database} {suiteId : Uuid} {suite : TestSuite} {doc : Document}

theorem Represents.congr {d : Option Document} (h : Represents db suiteId d)
    (hevolves : db.Evolves db') (hsuite : db'.suites.get? suiteId = db.suites.get? suiteId)
    (hcases : ownCases db' suiteId = ownCases db suiteId) : Represents db' suiteId d := by
  cases d with
  | none => exact hevolves.suites.gone suiteId h
  | some doc =>
    obtain ⟨suite, hget, hfits, hcontent⟩ := h
    exact ⟨suite, hsuite.trans hget, hfits, by rw [hcases]; exact hcontent⟩

theorem represents_sent (data : SuiteCreate) (ownerId : Uuid) (hi : db.Intact) :
    Represents (SuiteService.insertSuite db data ownerId) db.suites.next
      (some (Document.sent data ownerId)) := by
  refine ⟨SuiteService.newSuite data ownerId db.suites.next, ?_, ?_, ?_⟩
  · exact Table.get?_insert_self _ _ fun _ => SuiteService.id_newSuite ..
  · exact ⟨rfl, rfl, rfl, rfl, rfl, rfl, rfl⟩
  · have hold : (db.cases.rows.filter fun c => c.suiteId == db.suites.next) = [] := by
      rw [List.filter_eq_nil_iff]
      intro case hcase heq
      obtain ⟨suite, hsuite⟩ := hi.cases case hcase
      have hlt := Table.get?_lt hsuite
      rw [beq_iff_eq.mp heq] at hlt
      exact absurd hlt (Nat.lt_irrefl _)
    unfold ownCases SuiteService.insertSuite
    rw [Table.rows_insertAll, List.filter_append, hold, List.nil_append, List.filter_eq_self.mpr]
    · apply List.ext_getElem
      · simp [Document.sent]
      · intro i hi hi'
        simp [Document.sent, contentOf, dumpOf, SuiteService.buildCase]
    · intro case hcase
      obtain ⟨i, hi, rfl⟩ := List.mem_mapIdx.mp hcase
      simp [SuiteService.buildCase]

theorem getD_supplied {α : Type} {supplied : Option (Option α)} {old new : α}
    (h : some new = supplied.getD (some old)) : new = (supplied.getD none).getD old := by
  rcases supplied with _ | _ | value
  · exact Option.some.inj h
  · cases h
  · exact Option.some.inj h

theorem represents_patch {data : SuiteUpdate} {suite' : TestSuite}
    (h : Represents db suiteId (some doc)) (hget : db.suites.get? suiteId = some suite)
    (hpatch : SuiteService.patch suite data = some suite') :
    Represents (SuiteService.setSuite db suite') suiteId (doc.edit (.patch data)) := by
  obtain ⟨stored, hstored, hfits, hcontent⟩ := h
  obtain rfl := Option.some.inj (hget.symm.trans hstored)
  have hid : suite'.id = suiteId := (SuiteService.patch_some hpatch).1.trans (Table.get?_key hget)
  have hpatched := patched_of_patch hpatch
  refine ⟨suite', get?_setSuite hget hid, ?_, hcontent⟩
  constructor
  · exact (getD_supplied hpatched.name).trans (by rw [hfits.name])
  · exact hpatched.kept.2.1.trans hfits.slug
  · exact hpatched.description.trans (by rw [hfits.description])
  · exact (getD_supplied hpatched.targetBaseUrl).trans (by rw [hfits.targetBaseUrl])
  · exact hpatched.tags.trans (by rw [hfits.tags])
  · exact (getD_supplied hpatched.isActive).trans (by rw [hfits.isActive])
  · exact hpatched.kept.2.2.trans hfits.ownerId

theorem represents_addCase (h : Represents db suiteId (some doc)) (data : TestCaseCreate) :
    Represents (SuiteService.insertCase db suiteId data) suiteId (doc.edit (.addCase data)) := by
  obtain ⟨stored, hstored, hfits, hcontent⟩ := h
  refine ⟨stored, hstored, ⟨hfits.name, hfits.slug, hfits.description, hfits.targetBaseUrl,
    hfits.tags, hfits.isActive, hfits.ownerId⟩, ?_⟩
  unfold ownCases at hcontent ⊢
  unfold SuiteService.insertCase
  rw [Table.rows_insert, List.filter_append, List.map_append, hcontent]
  simp [SuiteService.buildCase, contentOf, dumpOf]

theorem represents_delete (hget : db.suites.get? suiteId = some suite) :
    Represents (db.deleteSuite suiteId) suiteId none :=
  Table.gone_filter hget (by simp [Table.get?_key hget])

end

/-! ## Requests -/

/-- What a request means for the suite. -/
def Write.edit (suiteId : Uuid) : Write → Option Edit
  | .updateSuite id data => if id = suiteId then some (.patch data) else none
  | .addCase id data => if id = suiteId then some (.addCase data) else none
  | .deleteSuite id => if id = suiteId then some .delete else none
  | .createSuite _ | .cancelRun _ | .reviewHealingEvent .. => none

def edited? (d : Option Document) (edit : Option Edit) : Option Document :=
  d.bind fun doc => edit.elim (some doc) doc.edit

@[simp] theorem edited?_none (d : Option Document) : edited? d none = d := by
  cases d with
  | none => rfl
  | some doc => rfl

section
variable {db db' : Database} {suiteId : Uuid} {d : Option Document} {user : User}

theorem represents_write {write : Write} {response : Response} (h : Represents db suiteId d)
    (hlt : suiteId < db.suites.next) (hwrite : handleWrite db user write = .ok (db', response)) :
    Represents db' suiteId (edited? d (write.edit suiteId)) := by
  have hevolves := write_evolves (handleWrite_effect hwrite)
  cases d with
  | none => exact hevolves.suites.gone suiteId h
  | some doc =>
    cases write with
    | createSuite data =>
      simp only [handleWrite] at hwrite
      split at hwrite
      · cases hwrite
      · next suite db₁ hcreate =>
        obtain ⟨rfl, -⟩ := Prod.mk.inj (Except.ok.inj hwrite)
        obtain ⟨-, rfl⟩ := SuiteService.create_ok hcreate
        refine h.congr hevolves ?_ ?_
        · exact Table.get?_insert_of_ne _ _ (fun _ => SuiteService.id_newSuite ..)
            (Nat.ne_of_lt hlt)
        · exact SuiteService.filter_insertSuite_cases data user.id (Nat.ne_of_lt hlt)
    | updateSuite id data =>
      simp only [handleWrite] at hwrite
      split at hwrite
      · cases hwrite
      · next suite' db₁ hupdate =>
        obtain ⟨rfl, -⟩ := Prod.mk.inj (Except.ok.inj hwrite)
        obtain ⟨suite, hmutable, hpatch, rfl⟩ := SuiteService.update_ok hupdate
        have hget := SuiteService.mutable_get hmutable
        by_cases hid : id = suiteId
        · subst hid
          rw [Write.edit, if_pos rfl]
          exact represents_patch h hget hpatch
        · rw [Write.edit, if_neg hid, edited?_none]
          refine h.congr hevolves ?_ rfl
          have hne : suiteId ≠ suite'.id := by
            rw [(SuiteService.patch_some hpatch).1, Table.get?_key hget]
            exact Ne.symm hid
          exact Table.get?_modify_of_ne db.suites
            (fun stored : TestSuite => { suite' with id := stored.id }) (fun _ => rfl) hne
    | deleteSuite id =>
      simp only [handleWrite] at hwrite
      split at hwrite
      · cases hwrite
      · next db₁ hdelete =>
        obtain ⟨rfl, -⟩ := Prod.mk.inj (Except.ok.inj hwrite)
        obtain ⟨suite, hmutable, rfl⟩ := SuiteService.delete_ok hdelete
        have hget := SuiteService.mutable_get hmutable
        have hkey := Table.get?_key hget
        rw [hkey] at hevolves ⊢
        by_cases hid : id = suiteId
        · subst hid
          rw [Write.edit, if_pos rfl]
          exact represents_delete hget
        · rw [Write.edit, if_neg hid, edited?_none]
          have hview : suiteView (db.deleteSuite id) suiteId = suiteView db suiteId :=
            suiteView_deleteSuite (Ne.symm hid)
          exact h.congr hevolves (congrArg Prod.fst hview)
            (filter_ne_filter db.cases.rows TestCase.suiteId (Ne.symm hid))
    | addCase id data =>
      simp only [handleWrite] at hwrite
      split at hwrite
      · cases hwrite
      · next case db₁ hadd =>
        obtain ⟨rfl, -⟩ := Prod.mk.inj (Except.ok.inj hwrite)
        obtain ⟨suite, hmutable, -, rfl⟩ := SuiteService.addCase_ok hadd
        have hkey := Table.get?_key (SuiteService.mutable_get hmutable)
        rw [hkey] at hevolves ⊢
        by_cases hid : id = suiteId
        · subst hid
          rw [Write.edit, if_pos rfl]
          exact represents_addCase h data
        · rw [Write.edit, if_neg hid, edited?_none]
          refine h.congr hevolves rfl ?_
          have hnew : ([SuiteService.buildCase id data db.cases.next].filter
              fun c => c.suiteId == suiteId) = [] := by
            simpa [SuiteService.buildCase] using hid
          unfold ownCases SuiteService.insertCase
          rw [Table.rows_insert, List.filter_append, hnew, List.append_nil]
    | cancelRun runId =>
      have heffect := handleWrite_effect hwrite
      cases heffect with
      | nothing => exact h
      | cancelRun hrow hlive => exact h.congr hevolves rfl rfl
    | reviewHealingEvent eventId accepted =>
      have heffect := handleWrite_effect hwrite
      cases heffect with
      | nothing => exact h
      | review => exact h.congr hevolves rfl rfl

end

/-! ## The platform -/

section
variable [Unicode]

/-- What a step of the platform means for the suite: the edit of a request that is let through and
commits. -/
def PlatformLabel.edit (suiteId : Uuid) (s : Pool) : PlatformLabel → Option Edit
  | .request userId (.write write) true _ =>
    match engineer s.world.db userId with
    | .error _ => none
    | .ok user =>
      match handleWrite s.world.db user write with
      | .error _ => none
      | .ok _ => write.edit suiteId
  | _ => none

def edits (suiteId : Uuid) : Pool → List PlatformLabel → List Edit
  | _, [] => []
  | s, l :: ls =>
    (l.edit suiteId s).toList ++
      match Platform.next s l with
      | none => []
      | some t => edits suiteId t ls

variable {s t : Pool} {suiteId : Uuid} {d : Option Document}

omit [Unicode] in
theorem effect_suites {db db' : Database} {userId : Uuid} {commits : Bool} {request : Request}
    {called : Option Uuid} (h : Effect db userId commits request db' called)
    (hread : ∀ write, request ≠ .write write) : db'.suites = db.suites ∧ db'.cases = db.cases := by
  cases h with
  | nothing => exact ⟨rfl, rfl⟩
  | write => exact absurd rfl (hread _)
  | createRun => exact ⟨rfl, rfl⟩

omit [Unicode] in
theorem represents_handle {db : Database} {userId : Uuid} {commits : Bool} (enqueues : Bool)
    {write : Write} {edit : Option Edit} (h : Represents db suiteId d) (hlt : suiteId < db.suites.next)
    (hedit : edit = match commits, engineer db userId with
      | true, .ok user =>
        match handleWrite db user write with
        | .error _ => none
        | .ok _ => write.edit suiteId
      | _, _ => none) :
    Represents (handle db userId commits enqueues (.write write)).1 suiteId (edited? d edit) := by
  subst hedit
  unfold handle
  cases huser : engineer db userId with
  | error e =>
    cases commits with
    | false =>
      rw [edited?_none]
      exact h
    | true =>
      simp only [edited?_none]
      exact h
  | ok user =>
    cases commits with
    | false =>
      rw [edited?_none]
      cases hwrite : handleWrite db user write with
      | error e =>
        simp only [hwrite]
        exact h
      | ok result =>
        simp only [hwrite]
        exact h
    | true =>
      cases hwrite : handleWrite db user write with
      | error e =>
        simp only [hwrite, edited?_none]
        exact h
      | ok result =>
        simp only [hwrite, if_true]
        exact represents_write h hlt hwrite

theorem represents_next {l : PlatformLabel} (h : Represents s.world.db suiteId d)
    (hs : Coherent s) (hlt : suiteId < s.world.db.suites.next)
    (hnext : ofNext Platform.next s l t) :
    Represents t.world.db suiteId (edited? d (l.edit suiteId s)) := by
  have hevolves := platform_evolves hs hnext
  have hkept : t.world.db.suites = s.world.db.suites → t.world.db.cases = s.world.db.cases →
      Represents t.world.db suiteId (edited? d none) := by
    intro hsuites hcases
    rw [edited?_none]
    refine h.congr hevolves (by rw [hsuites]) ?_
    unfold ownCases
    rw [hcases]
  cases l with
  | request userId request commits enqueues =>
    obtain rfl := Option.some.inj hnext
    have heffect := handle_effect s.world.db userId commits enqueues request
    cases request with
    | read read =>
      obtain ⟨hsuites, hcases⟩ := effect_suites heffect fun _ => Request.noConfusion
      exact hkept hsuites hcases
    | triggerRun id data idempotencyKey =>
      obtain ⟨hsuites, hcases⟩ := effect_suites heffect fun _ => Request.noConfusion
      exact hkept hsuites hcases
    | write write =>
      refine represents_handle enqueues h hlt ?_
      cases commits with
      | false => rfl
      | true =>
        cases huser : engineer s.world.db userId with
        | error e => simp only [PlatformLabel.edit, huser]
        | ok user => simp only [PlatformLabel.edit, huser]
  | register hashPassword data =>
    simp only [ofNext, Platform.next] at hnext
    split at hnext
    · obtain rfl := Option.some.inj hnext
      exact hkept rfl rfl
    · next user db hregister =>
      obtain rfl := Option.some.inj hnext
      obtain ⟨-, -, rfl⟩ := register_ok hregister
      exact hkept rfl rfl
  | deliver i env =>
    obtain ⟨e, w, phase, hd, -, step, rfl⟩ := deliver_next (i := i) hnext
    rcases phase_writes step (hs.deliveries i e hd) with heq | ⟨_, _, _, _, _, -, -, -, -, heq⟩
    · exact hkept (by rw [heq]) (by rw [heq])
    · exact hkept (by rw [heq]; rfl) (by rw [heq]; rfl)
  | arrive userId runId =>
    simp only [ofNext, Platform.next] at hnext
    split at hnext
    · obtain rfl := Option.some.inj hnext
      exact hkept rfl rfl
    · obtain rfl := Option.some.inj hnext
      exact hkept rfl rfl
  | cancel i commits =>
    cases pool_step (l := .cancel i commits) hnext with
    | @cancel _ _ c db phase hc step =>
      generalize c.phase = old at step
      cases step with
      | refuse => exact hkept rfl rfl
      | load => exact hkept rfl rfl
      | commit => exact hkept rfl rfl
      | fail => exact hkept rfl rfl
      | done => exact hkept rfl rfl

omit [Unicode] in
theorem edited?_edited (d : Option Document) (e : Option Edit) (rest : List Edit) :
    ((edited? d e).bind fun doc => doc.edited rest) =
      d.bind fun doc => doc.edited (e.toList ++ rest) := by
  cases d with
  | none => rfl
  | some doc =>
    cases e with
    | none => rfl
    | some e =>
      unfold edited? Document.edited
      simp only [Option.bind_some, Option.elim_some, Option.toList_some, List.singleton_append,
        List.foldlM_cons]
      rfl

theorem represents_run {ls : List PlatformLabel} (hs : Coherent s)
    (hlt : suiteId < s.world.db.suites.next) (h : Represents s.world.db suiteId d)
    (hrun : exec Platform.next s ls = some t) :
    Represents t.world.db suiteId (d.bind fun doc => doc.edited (edits suiteId s ls)) := by
  induction ls generalizing s d with
  | nil =>
    obtain rfl := Option.some.inj hrun
    have hnone : (d.bind fun doc => doc.edited []) = d := by
      cases d with
      | none => rfl
      | some doc => rfl
    rw [edits, hnone]
    exact h
  | cons l ls ih =>
    obtain ⟨m, hm, hrest⟩ := Option.bind_eq_some_iff.mp hrun
    have hlater := ih (coherent_step hs hm)
      (Nat.lt_of_lt_of_le hlt (platform_evolves hs hm).suites.next_le)
      (represents_next h hs hlt hm) hrest
    rw [edits, hm, ← edited?_edited]
    exact hlater

/-! ## What is read, and what is executed -/

omit [Unicode] in
theorem cases_inOrder {db : Database} {doc : Document}
    (h : (ownCases db suiteId).map contentOf = doc.cases.map dumpOf) :
    ∃ ordered, doc.InOrder ordered ∧
      (db.casesOf suiteId).map contentOf = ordered.map dumpOf := by
  rw [← List.forall₂_eq_eq_eq, List.forall₂_map_left_iff, List.forall₂_map_right_iff] at h
  have hkey (case : TestCase) (data : TestCaseCreate) (heq : contentOf case = dumpOf data) :
      OrderDual.toDual data.orderIndex = OrderDual.toDual case.orderIndex :=
    congrArg OrderDual.toDual (Prod.mk.inj (Prod.mk.inj heq).2).1.symm
  obtain ⟨ordered, hordered, hmatched⟩ := (db.casesOf_orderBy suiteId).matched h hkey
  refine ⟨ordered, hordered, ?_⟩
  rwa [← List.forall₂_eq_eq_eq, List.forall₂_map_left_iff, List.forall₂_map_right_iff]

omit [Unicode] in
theorem validateSteps_dump (env : Env) (steps : List StepSpec) :
    validateSteps env (steps.map StepSpec.modelDump) = .ok steps := by
  rw [validateSteps_of_valid]
  · have hread : StepSpec.modelValidate ∘ StepSpec.modelDump = some :=
      funext StepSpec.modelValidate_modelDump
    rw [List.filterMap_map, hread, List.filterMap_some]
  · intro s hs
    obtain ⟨step, -, rfl⟩ := List.mem_map.mp hs
    rw [StepSpec.modelValidate_modelDump]
    rfl

/-- What everybody finds under the id of the suite. -/
def Shows (db : Database) (suiteId : Uuid) : Option Document → Prop
  | none => db.getWithCases suiteId = none ∧ ∀ user, handleRead db user (.getSuite suiteId) = .failed suiteNotFound
  | some doc => ∃ suite cases ordered, db.getWithCases suiteId = some (suite, cases) ∧
      doc.Fits suite ∧ doc.InOrder ordered ∧ List.Forall₂ Executes cases ordered ∧
      ∀ user, handleRead db user (.getSuite suiteId) =
        if doc.tags.isSome then .suite suite cases else .internalError

omit [Unicode] in
theorem executes_of_content {cases : List TestCase} {sent : List TestCaseCreate}
    (h : cases.map contentOf = sent.map dumpOf) : List.Forall₂ Executes cases sent := by
  rw [← List.forall₂_eq_eq_eq, List.forall₂_map_left_iff, List.forall₂_map_right_iff] at h
  refine h.imp ?_
  intro case data heq
  obtain ⟨hname, hrest⟩ := Prod.mk.inj heq
  refine ⟨hname, fun env => ?_⟩
  rw [(Prod.mk.inj hrest).2]
  exact validateSteps_dump env data.steps

omit [Unicode] in
theorem renderCase_executes {case : TestCase} {data : TestCaseCreate}
    (h : contentOf case = dumpOf data) : renderCase case := by
  have hsteps : case.steps = data.steps.map StepSpec.modelDump :=
    (Prod.mk.inj (Prod.mk.inj h).2).2
  unfold renderCase
  rw [hsteps]
  exact renderCase_buildCase 0 data 0

omit [Unicode] in
theorem shows_of_represents {db : Database} (h : Represents db suiteId d) : Shows db suiteId d := by
  cases d with
  | none =>
    have hnone : db.suites.get? suiteId = none := h.2
    refine ⟨?_, fun user => renderStored_none hnone⟩
    unfold Database.getWithCases
    rw [hnone]
    rfl
  | some doc =>
    obtain ⟨suite, hget, hfits, hcontent⟩ := h
    obtain ⟨ordered, hinOrder, hsame⟩ := cases_inOrder hcontent
    have hfound : db.getWithCases suiteId = some (suite, db.casesOf suiteId) := by
      unfold Database.getWithCases
      rw [hget]
      rfl
    refine ⟨suite, db.casesOf suiteId, ordered, hfound, hfits, hinOrder, executes_of_content hsame, ?_⟩
    intro user
    have hcases : (db.casesOf suiteId).all renderCase = true := by
      rw [List.all_eq_true]
      intro case hcase
      have hmem := List.mem_map_of_mem (f := contentOf) hcase
      rw [hsame] at hmem
      obtain ⟨data, -, hdata⟩ := List.mem_map.mp hmem
      exact renderCase_executes hdata.symm
    show renderStored db suiteId = _
    unfold renderStored SuiteService.get
    rw [hfound]
    simp only [renderSuite, hcases, hfits.tags, Bool.and_true]

omit [Unicode] in
theorem renderStored_id {db : Database} {suite : TestSuite} {cases : List TestCase}
    (h : renderStored db suiteId = .suite suite cases) : suite.id = suiteId := by
  unfold renderStored SuiteService.get Database.getWithCases at h
  cases hget : db.suites.get? suiteId with
  | none => simp [hget] at h
  | some stored =>
    simp only [hget, Option.map_some, renderSuite] at h
    split at h
    · obtain ⟨rfl, -⟩ := Response.suite.inj h
      exact Table.get?_key hget
    · cases h

omit [Unicode] in
/-- A suite that is answered is stored under the next id. -/
theorem handle_createSuite {db : Database} {userId : Uuid} {commits enqueues : Bool}
    {data : SuiteCreate} {suite : TestSuite} {cases : List TestCase}
    (h : (handle db userId commits enqueues (.write (.createSuite data))).2.2 = .suite suite cases) :
    suite.id = db.suites.next ∧
      (handle db userId commits enqueues (.write (.createSuite data))).1 =
        SuiteService.insertSuite db data userId := by
  unfold handle at h ⊢
  cases huser : engineer db userId with
  | error e =>
    rw [huser] at h
    cases h
  | ok user =>
    simp only [huser] at h ⊢
    have hid : user.id = userId := Table.get?_key (engineer_ok huser)
    cases hcreate : SuiteService.create db data user.id with
    | error e =>
      simp only [handleWrite, hcreate] at h
      cases h
    | ok result =>
      obtain ⟨stored, db'⟩ := result
      obtain ⟨rfl, rfl⟩ := SuiteService.create_ok hcreate
      simp only [handleWrite, hcreate] at h ⊢
      cases commits with
      | false => cases h
      | true =>
        simp only [if_true, SuiteService.id_newSuite, hid] at h ⊢
        exact ⟨renderStored_id h, trivial⟩

theorem represents_created {s₀ s s' t : Pool} {ls ms : List PlatformLabel} {userId : Uuid}
    {commits enqueues : Bool} {data : SuiteCreate} {suite : TestSuite} {cases : List TestCase}
    (h : Platform.Initial s₀) (hbefore : Run (ofNext Platform.next) s₀ ls s)
    (hcreate : ofNext Platform.next s
      (.request userId (.write (.createSuite data)) commits enqueues) s')
    (hanswer : (handle s.world.db userId commits enqueues (.write (.createSuite data))).2.2 =
      .suite suite cases)
    (hafter : Run (ofNext Platform.next) s' ms t) :
    Represents t.world.db suite.id
      ((Document.sent data userId).edited (edits suite.id s' ms)) := by
  have hs : Coherent s :=
    hbefore.invariant (fun _ _ _ hs hstep => coherent_step hs hstep) (initial_coherent h)
  obtain ⟨hid, hdb⟩ := handle_createSuite hanswer
  have hs' := coherent_step hs hcreate
  obtain rfl := Option.some.inj hcreate
  have hsent := represents_sent data userId hs.intact
  rw [← hdb, ← hid] at hsent
  have hlt : suite.id < (handle s.world.db userId commits enqueues
      (.write (.createSuite data))).1.suites.next := by
    rw [hdb, hid]
    exact Nat.lt_succ_self _
  exact represents_run hs' hlt hsent (run_exec hafter)

/-- Once a suite is created, everybody finds the document that the accepted requests make of what
was sent, whatever other requests, workers and cancel requests do in between: its fields, and its
cases in some order by `order_index`, with the steps a worker executes. -/
theorem suite_as_edited {s₀ s s' t : Pool} {ls ms : List PlatformLabel} {userId : Uuid}
    {commits enqueues : Bool} {data : SuiteCreate} {suite : TestSuite} {cases : List TestCase}
    (h : Platform.Initial s₀) (hbefore : Run (ofNext Platform.next) s₀ ls s)
    (hcreate : ofNext Platform.next s
      (.request userId (.write (.createSuite data)) commits enqueues) s')
    (hanswer : (handle s.world.db userId commits enqueues (.write (.createSuite data))).2.2 =
      .suite suite cases)
    (hafter : Run (ofNext Platform.next) s' ms t) :
    Shows t.world.db suite.id
      ((Document.sent data userId).edited (edits suite.id s' ms)) :=
  shows_of_represents (represents_created h hbefore hcreate hanswer hafter)

end

/-! ## A suite edited while a worker runs it -/

def adaSuite : SuiteCreate :=
  { name := "Login"
    slug := "login"
    targetBaseUrl := "https://example.com"
    cases := [{ name := "Sign in", orderIndex := 1, steps := loginSteps }] }

def openCase : TestCaseCreate := { name := "Open", orderIndex := 0, steps := loginSteps }

def adaSends : PlatformLabel := .request 0 (.write (.createSuite adaSuite)) true true

/-- The deletion comes from an account that does not exist. -/
def adaEdits : List PlatformLabel :=
  [.request 0 (.triggerRun 0 {} none) true true, .deliver 0 calm, .deliver 0 calm,
    .request 0 (.write (.updateSuite 0 { description := some (some "Smoke") })) true true,
    .request 1 (.write (.deleteSuite 0)) true true, .deliver 0 calm,
    .request 0 (.write (.addCase 0 openCase)) true true]

theorem ada_suite_as_edited :
    ∃ s s' t, Run (ofNext (@Platform.next asciiUnicode)) emptyPlatform
        [.register id { email := "Ada@example.com", fullName := "Ada", password := "engine no. 1" }] s ∧
      @Platform.next asciiUnicode s adaSends = some s' ∧
      Run (ofNext (@Platform.next asciiUnicode)) s' adaEdits t ∧
      Shows t.world.db 0 ((Document.sent adaSuite 0).edited
        [.patch { description := some (some "Smoke") }, .addCase openCase]) := by
  let _ : Unicode := asciiUnicode
  have hrun : ∃ s s' t, Run (ofNext Platform.next) emptyPlatform
        [.register id { email := "Ada@example.com", fullName := "Ada", password := "engine no. 1" }] s ∧
      Platform.next s adaSends = some s' ∧ Run (ofNext Platform.next) s' adaEdits t ∧
      s.world.db.suites.next = 0 ∧
      (∃ suite cases, (handle s.world.db 0 true true (.write (.createSuite adaSuite))).2.2 =
        .suite suite cases) ∧
      edits 0 s' adaEdits = [.patch { description := some (some "Smoke") }, .addCase openCase] :=
    ⟨_, _, _, exec_run rfl, rfl, exec_run rfl, rfl, ⟨_, _, rfl⟩, rfl⟩
  obtain ⟨s, s', t, hbefore, hcreate, hafter, hnext, ⟨suite, cases, hanswer⟩, hedits⟩ := hrun
  refine ⟨s, s', t, hbefore, hcreate, hafter, ?_⟩
  have hshows := suite_as_edited emptyPlatform_initial hbefore hcreate hanswer hafter
  rw [(handle_createSuite hanswer).1, hnext, hedits] at hshows
  exact hshows

end AegisPlatform.Api
