import Ally.IngestRuns

/-!
# In which order versions of a document become active

The pointer of a document follows its activations and never looks at version
numbers, which follow the registrations. It therefore never goes back exactly
when the activations of the document come in the order of the registrations.
-/

open Relational

namespace Ally

variable {tenants : List Uuid} {ts : List Transaction} {db db' : Db} {documentId : Uuid}

def Transaction.registers (versionId : Uuid) : Transaction → Bool
  | .register a => a.versionId = versionId
  | _ => false

def Transaction.activates (documentId : Uuid) : Transaction → Option Uuid
  | .activate d v _ => if d = documentId then some v else none
  | _ => none

def Transaction.retires (documentId : Uuid) : Transaction → Bool
  | .tombstone d _ _ => d = documentId
  | _ => false

/-- The versions of the document that were activated, in commit order. -/
def activated (documentId : Uuid) (ts : List Transaction) : List Uuid :=
  ts.filterMap (Transaction.activates documentId)

/-- The place of the registration of a version in the history. -/
def registeredAt (versionId : Uuid) (ts : List Transaction) : ℕ :=
  ts.findIdx (Transaction.registers versionId)

def ActivatesInOrder (documentId : Uuid) (ts : List Transaction) : Prop :=
  (activated documentId ts).Pairwise fun w v => registeredAt w ts ≤ registeredAt v ts

/-- The document points to a version with this number. -/
def Db.PointsToNumber (db : Db) (documentId : Uuid) (versionNumber : ℕ) : Prop :=
  ∃ d ∈ db.documents, d.id = documentId ∧ ∃ v ∈ db.versions, d.activeVersionId = some v.id ∧
    v.versionNumber = versionNumber

/-- The version number the document points to never decreases along the history. -/
def NeverBackwards (tenants : List Uuid) (ts : List Transaction) (documentId : Uuid) : Prop :=
  ∀ before between after db db' n n', ts = before ++ between ++ after →
    history tenants before = some db → history tenants (before ++ between) = some db' →
    db.PointsToNumber documentId n → db'.PointsToNumber documentId n' → n ≤ n'

/-! ### The rows of a history -/

theorem version_stays_run (hc : db.Coherent) (h : Machine.run commit db ts = some db') {v : Version}
    (hv : v ∈ db.versions) : ∃ v' ∈ db'.versions, v.SameRow v' := by
  induction ts generalizing db v with
  | nil =>
      obtain rfl := Option.some.inj h
      exact ⟨v, hv, .refl v⟩
  | cons t ts ih =>
      obtain ⟨m, hm, h⟩ := Machine.run_cons_some.mp h
      obtain ⟨w, hw, hvw, -⟩ := version_moves hc (commit_some.mp hm) hv
      obtain ⟨v', hv', hwv⟩ := ih (hc.apply (commit_some.mp hm)) h hw
      exact ⟨v', hv', hvw.trans hwv⟩

/-- Only the registration that names it brings a version row into the table. -/
theorem registers_of_new {t : Transaction} (h : t.apply db = .ok db') {v' : Version}
    (hv' : v' ∈ db'.versions) (hnew : ∀ v ∈ db.versions, v.id ≠ v'.id) :
    t.registers v'.id = true := by
  have hupdate : ∀ {rows : Table Version.id} {p : Version → Bool} {f : Rewrite Version.id},
      (∀ w ∈ rows, w.id ≠ v'.id) → v' ∉ rows.update p f := by
    intro rows p f hrows hm
    obtain ⟨w, hw, he⟩ := Table.mem_update.mp hm
    apply hrows w hw
    rw [he]
    split_ifs
    · exact (f.keeps w).symm
    · rfl
  have hold : v' ∉ db.versions := fun hm => hnew v' hm rfl
  cases t with
  | register a =>
      obtain ⟨db₁, db₂, h₁, h₂, h₃⟩ := registerIngestion_ok h
      have hv : db₂.versions = db.versions :=
        (ensureAttempt_frame h₂).2.trans (upsertDocument_documents h₁).2.2.2
      rcases ensureVersion_ok h₃ with ⟨rfl, -⟩ | ⟨n, versions, -, hi, rfl⟩
      · exact absurd (hv ▸ hv') hold
      · rcases ((Table.insert_some hi).2 v').mp hv' with hm | rfl
        · exact absurd (hv ▸ hm) hold
        · exact decide_eq_true rfl
  | stage d a tenantId stage =>
      obtain ⟨-, -, -, rfl⟩ := updateIngestionStage_ok_iff.mp h
      exact absurd hv' hold
  | persist tenantId d v filename chunks =>
      obtain ⟨-, _, rfl⟩ := persistVersionChunks_ok h
      exact absurd hv' (hupdate hnew)
  | activate d v tenantId =>
      obtain ⟨e, -, -, -, -, -, -, -, ⟨-, rfl⟩ | ⟨-, rfl⟩⟩ := activateIngestionVersion_ok h
      · exact absurd hv' hold
      · refine absurd hv' (hupdate fun w hw he => ?_)
        cases hp : e.activeVersionId with
        | none =>
            rw [hp] at hw
            exact hnew w hw he
        | some previous =>
            rw [hp] at hw
            obtain ⟨u, hu, rfl⟩ := Table.mem_update.mp hw
            apply hnew u hu
            rw [← he]
            split_ifs <;> rfl
  | finish d a v tenantId status errorCode =>
      obtain ⟨-, ⟨-, -, rfl⟩ | ⟨-, ⟨-, rfl⟩ | ⟨-, hf⟩⟩⟩ := finishIngestionAttempt_ok_iff.mp h
      · exact absurd hv' hold
      · exact absurd hv' hold
      · rcases failVersion_ok_iff.mp hf with ⟨-, -, rfl⟩ | ⟨-, -, rfl⟩
        · exact absurd hv' hold
        · exact absurd hv' (hupdate hnew)
  | tombstone d tenantId reason =>
      obtain ⟨-, -, -, _, _, ⟨-, rfl⟩ | ⟨-, rfl⟩⟩ := tombstoneIngestionDocument_ok h
      · exact absurd hv' hold
      · exact absurd hv' (hupdate hnew)
  | reconcile =>
      obtain rfl := Except.ok.inj h
      exact absurd hv' hold

/-- The number of a new version is above those of its document. -/
theorem new_version_last {t : Transaction} (hc : db.Coherent) (h : t.apply db = .ok db')
    {v' : Version} (hv' : v' ∈ db'.versions) (hnew : ∀ v ∈ db.versions, v.id ≠ v'.id) :
    ∀ v ∈ db.versions, v.documentId = v'.documentId → v.versionNumber < v'.versionNumber := by
  rcases apply_cases hc h with hn | ⟨d, w, _, -, ha⟩ | ⟨d, _, _, -, hr⟩
  · rcases hn.versionOf v' hv' with ⟨v, hv, hsame, -⟩ | ⟨-, -, hlast, -⟩
    · exact absurd hsame.id.symm (hnew v hv)
    · exact hlast
  · obtain ⟨v, hv, rfl⟩ := (ha.versions v').mp hv'
    exact absurd (v.activated_sameRow d w).id.symm (hnew v hv)
  · obtain ⟨v, hv, rfl⟩ := (hr.versions v').mp hv'
    exact absurd (v.retired_sameRow d).id.symm (hnew v hv)

/-- A registered version has a row. -/
theorem registered_row (h : history tenants ts = some db) {versionId : Uuid} {t : Transaction}
    (ht : t ∈ ts) (hr : t.registers versionId = true) : ∃ v ∈ db.versions, v.id = versionId := by
  obtain ⟨pre, post, rfl⟩ := List.append_of_mem ht
  obtain ⟨m, hm, hrest⟩ := Machine.run_append_some.mp h
  obtain ⟨m', hm', hpost⟩ := Machine.run_cons_some.mp hrest
  have hmc : m.Coherent := history_coherent hm
  obtain ⟨v, hv, hid⟩ : ∃ v ∈ m'.versions, v.id = versionId := by
    cases t with
    | register a =>
        have hid : a.versionId = versionId := of_decide_eq_true hr
        obtain ⟨db₁, db₂, -, -, h₃⟩ := registerIngestion_ok (commit_some.mp hm')
        rcases ensureVersion_ok h₃ with ⟨rfl, v, hv, hvid, -⟩ | ⟨n, versions, -, hi, rfl⟩
        · exact ⟨v, hv, hvid.trans hid⟩
        · exact ⟨_, ((Table.insert_some hi).2 _).mpr (Or.inr rfl), hid⟩
    | _ => cases hr
  obtain ⟨v', hv', hsame⟩ := version_stays_run (hmc.apply (commit_some.mp hm')) hpost hv
  exact ⟨v', hv', hsame.id.trans hid⟩

/-- Version numbers of one document are in the order of the registrations. -/
theorem registration_order (h : history tenants ts = some db) :
    (∀ v ∈ db.versions, registeredAt v.id ts < ts.length) ∧
    ∀ v ∈ db.versions, ∀ w ∈ db.versions, v.documentId = w.documentId →
      registeredAt v.id ts < registeredAt w.id ts → v.versionNumber < w.versionNumber := by
  induction ts using List.reverseRecOn generalizing db with
  | nil =>
      obtain rfl := Option.some.inj h
      exact ⟨fun v hv => absurd hv (Table.notMem_empty v),
        fun v hv => absurd hv (Table.notMem_empty v)⟩
  | append_singleton ts t ih =>
      obtain ⟨m, hm, hs⟩ := Machine.run_concat_some.mp h
      have hmc : m.Coherent := history_coherent hm
      have hs := commit_some.mp hs
      obtain ⟨hlt, hord⟩ := ih hm
      -- a row of `db` is one of `m` at its old place, or the new one at the last place
      have hrow : ∀ v ∈ db.versions,
          (∃ u ∈ m.versions, u.SameRow v ∧ registeredAt v.id (ts ++ [t]) = registeredAt u.id ts) ∨
          ((∀ u ∈ m.versions, u.id ≠ v.id) ∧ registeredAt v.id (ts ++ [t]) = ts.length) := by
        intro v hv
        by_cases hnew : ∀ u ∈ m.versions, u.id ≠ v.id
        · refine Or.inr ⟨hnew, ?_⟩
          have hnone : ts.findIdx (Transaction.registers v.id) = ts.length := by
            rw [List.findIdx_eq_length]
            intro t' ht'
            by_contra hr
            obtain ⟨u, hu, hid⟩ := registered_row hm ht' (by simpa using hr)
            exact hnew u hu hid
          have hlast := registers_of_new hs hv hnew
          rw [registeredAt, List.findIdx_append, hnone, if_neg (lt_irrefl _),
            List.findIdx_singleton, hlast, if_pos rfl]
          omega
        · push Not at hnew
          obtain ⟨u, hu, hid⟩ := hnew
          obtain ⟨v', hv', hsame, -⟩ := version_moves hmc hs hu
          obtain rfl : v' = v := Table.eq_of_key_eq hv' hv (hsame.id.trans hid)
          refine Or.inl ⟨u, hu, hsame, ?_⟩
          have hu' := hlt u hu
          rw [registeredAt, List.findIdx_append, hsame.id]
          exact if_pos hu'
      constructor
      · intro v hv
        rw [List.length_append, List.length_singleton]
        rcases hrow v hv with ⟨u, hu, -, hat⟩ | ⟨-, hat⟩
        · have := hlt u hu
          omega
        · omega
      · intro v hv w hw hdoc hvw
        rcases hrow v hv with ⟨u, hu, hsame, hat⟩ | ⟨-, hat⟩
        · rcases hrow w hw with ⟨x, hx, hsame', hat'⟩ | ⟨hnew, -⟩
          · rw [hsame.versionNumber, hsame'.versionNumber]
            refine hord u hu x hx ?_ (by rwa [hat, hat'] at hvw)
            rw [← hsame.documentId, hdoc, hsame'.documentId]
          · rw [hsame.versionNumber]
            refine new_version_last hmc hs hw hnew u hu ?_
            rw [← hsame.documentId, hdoc]
        · rcases hrow w hw with ⟨x, hx, -, hat'⟩ | ⟨-, hat'⟩
          · have := hlt x hx
            omega
          · omega

theorem registeredAt_inj (h : history tenants ts = some db) {v : Version} {versionId : Uuid}
    (hv : v ∈ db.versions) (he : registeredAt v.id ts = registeredAt versionId ts) :
    v.id = versionId := by
  have hlt : ts.findIdx (Transaction.registers v.id) < ts.length :=
    (registration_order h).1 v hv
  have hlt' : ts.findIdx (Transaction.registers versionId) < ts.length := by
    change registeredAt versionId ts < ts.length
    rw [← he]
    exact hlt
  have h₁ := List.findIdx_getElem (w := hlt)
  have h₂ := List.findIdx_getElem (w := hlt')
  have hsame : ts[ts.findIdx (Transaction.registers v.id)] =
      ts[ts.findIdx (Transaction.registers versionId)] := by
    congr 1
  rw [hsame] at h₁
  cases ht : ts[ts.findIdx (Transaction.registers versionId)] with
  | register a =>
      rw [ht] at h₁ h₂
      exact (of_decide_eq_true h₁).symm.trans (of_decide_eq_true h₂)
  | _ =>
      rw [ht] at h₁
      cases h₁

/-! ### The pointer is the last activation -/

theorem document_stays {t : Transaction} (hc : db.Coherent) (h : t.apply db = .ok db')
    {d : Document} (hd : d ∈ db.documents) : ∃ d' ∈ db'.documents, d'.id = d.id := by
  rcases apply_cases hc h with hn | ⟨e, v, _, -, ha⟩ | ⟨e, _, _, -, hr⟩
  · obtain ⟨d', hd', hsp⟩ := hn.documentTo d hd
    exact ⟨d', hd', hsp.id⟩
  · exact ⟨_, (ha.documents _).mpr ⟨d, hd, rfl⟩, (d.pointedTo_id e v).1⟩
  · exact ⟨_, (hr.documents _).mpr ⟨d, hd, rfl⟩, (d.retired_id e).1⟩

theorem activated_concat_of_ne {t : Transaction}
    (ht : ∀ v tenantId, t ≠ .activate documentId v tenantId) :
    activated documentId (ts ++ [t]) = activated documentId ts := by
  have hnone : t.activates documentId = none := by
    cases t with
    | activate d v tenantId =>
        have hne : d ≠ documentId := by
          rintro rfl
          exact ht v tenantId rfl
        exact if_neg hne
    | _ => rfl
  rw [activated, List.filterMap_append, List.filterMap_cons_none hnone, List.filterMap_nil,
    List.append_nil]
  rfl

theorem activated_concat (v tenantId : Uuid) :
    activated documentId (ts ++ [.activate documentId v tenantId]) =
      activated documentId ts ++ [v] := by
  have hsome : (Transaction.activate documentId v tenantId).activates documentId = some v :=
    if_pos rfl
  rw [activated, List.filterMap_append, List.filterMap_cons_some hsome, List.filterMap_nil]
  rfl

/-- A document that is not tombstoned points to the version activated last. -/
theorem pointer_eq_last (h : history tenants ts = some db)
    (hts : ∀ t ∈ ts, t.retires documentId = false) :
    (activated documentId ts ≠ [] → ∃ d ∈ db.documents, d.id = documentId) ∧
    ∀ d ∈ db.documents, d.id = documentId →
      d.activeVersionId = (activated documentId ts).getLast? := by
  induction ts using List.reverseRecOn generalizing db with
  | nil =>
      obtain rfl := Option.some.inj h
      exact ⟨fun hne => absurd rfl hne, fun d hd => absurd hd (Table.notMem_empty d)⟩
  | append_singleton ts t ih =>
      obtain ⟨m, hm, hs⟩ := Machine.run_concat_some.mp h
      have hmc : m.Coherent := history_coherent hm
      have hs := commit_some.mp hs
      obtain ⟨hrow, hptr⟩ := ih hm fun t' ht' => hts t' (List.mem_append_left _ ht')
      by_cases hact : ∃ v tenantId, t = .activate documentId v tenantId
      · obtain ⟨v, tenantId, rfl⟩ := hact
        obtain ⟨e, he, heid, hp⟩ := activate_points hmc hs
        refine ⟨fun _ => ⟨e, he, heid⟩, fun d hd hid => ?_⟩
        obtain rfl : e = d := Table.eq_of_key_eq he hd (heid.trans hid.symm)
        rw [hp, activated_concat, List.getLast?_append, List.getLast?_singleton]
        rfl
      · have hne : ∀ v tenantId, t ≠ .activate documentId v tenantId :=
          fun v tenantId he => hact ⟨v, tenantId, he⟩
        rw [activated_concat_of_ne hne]
        refine ⟨fun hne => ?_, fun d hd hid => ?_⟩
        · obtain ⟨d, hd, hid⟩ := hrow hne
          obtain ⟨d', hd', hid'⟩ := document_stays hmc hs hd
          exact ⟨d', hd', hid'.trans hid⟩
        · rcases apply_cases hmc hs with
            hn | ⟨e, v, tenantId, rfl, ha⟩ | ⟨e, tenantId, reason, rfl, hr⟩
          · rcases hn.documentOf d hd with ⟨d₀, hd₀, hsp⟩ | ⟨hnull, -, hfresh⟩
            · rw [hsp.activeVersionId]
              exact hptr d₀ hd₀ (hsp.id.symm.trans hid)
            · -- a new document row: nothing was activated before it
              have hnil : activated documentId ts = [] := by
                by_contra hne
                obtain ⟨d₀, hd₀, hid₀⟩ := hrow hne
                exact hfresh d₀ hd₀ (hid₀.trans hid.symm)
              rw [hnull, hnil]
              rfl
          · obtain ⟨d₀, hd₀, rfl⟩ := (ha.documents d).mp hd
            have hid₀ : d₀.id = documentId := (d₀.pointedTo_id e v).1.symm.trans hid
            have hne' : d₀.id ≠ e := by
              rintro rfl
              exact hne v tenantId (by rw [hid₀])
            rw [Document.pointedTo, if_neg hne']
            exact hptr d₀ hd₀ hid₀
          · have hother := hts _ (List.mem_append_right _ (List.mem_singleton.mpr rfl))
            obtain ⟨d₀, hd₀, rfl⟩ := (hr.documents d).mp hd
            have hid₀ : d₀.id = documentId := (d₀.retired_id e).1.symm.trans hid
            have hne' : d₀.id ≠ e := by
              rintro rfl
              exact absurd hid₀ (of_decide_eq_false hother)
            rw [Document.retired, if_neg hne']
            exact hptr d₀ hd₀ hid₀

/-- The document's pointer, when it names a version, names the version activated last. -/
theorem pointsToNumber_last (h : history tenants ts = some db)
    (hts : ∀ t ∈ ts, t.retires documentId = false) {n : ℕ} :
    db.PointsToNumber documentId n ↔ ∃ v ∈ db.versions, v.documentId = documentId ∧
      (activated documentId ts).getLast? = some v.id ∧ v.versionNumber = n := by
  have hc := history_coherent h
  obtain ⟨hrow, hptr⟩ := pointer_eq_last h hts
  constructor
  · rintro ⟨d, hd, hid, v, hv, hp, hn⟩
    obtain ⟨w, hw, hwid, hwdoc, -⟩ := hc.pointer d hd v.id hp
    obtain rfl : w = v := Table.eq_of_key_eq hw hv hwid
    exact ⟨w, hw, hwdoc.trans hid, (hptr d hd hid).symm.trans hp, hn⟩
  · rintro ⟨v, hv, hdoc, hlast, hn⟩
    obtain ⟨d, hd, hid⟩ := hrow fun hnil => by
      rw [hnil] at hlast
      cases hlast
    exact ⟨d, hd, hid, v, hv, (hptr d hd hid).trans hlast, hn⟩

/-! ### Never backwards is in order -/

/-- The activated versions of a history have rows of the document. -/
theorem activated_row (h : history tenants ts = some db) {versionId : Uuid}
    (hv : versionId ∈ activated documentId ts) :
    ∃ v ∈ db.versions, v.id = versionId ∧ v.documentId = documentId := by
  obtain ⟨t, ht, hact⟩ := List.mem_filterMap.mp hv
  obtain ⟨pre, post, rfl⟩ := List.append_of_mem ht
  obtain ⟨m, hm, hrest⟩ := Machine.run_append_some.mp h
  obtain ⟨m', hm', hpost⟩ := Machine.run_cons_some.mp hrest
  have hmc : m.Coherent := history_coherent hm
  have hmc' : m'.Coherent := hmc.apply (commit_some.mp hm')
  cases t with
  | activate d w tenantId =>
      have hd : d = documentId ∧ w = versionId := by
        simpa [Transaction.activates] using hact
      obtain ⟨rfl, rfl⟩ := hd
      obtain ⟨e, he, heid, hp⟩ := activate_points hmc (commit_some.mp hm')
      obtain ⟨v, hv, hid, hdoc, -⟩ := hmc'.pointer e he w hp
      obtain ⟨v', hv', hsame⟩ := version_stays_run hmc' hpost hv
      exact ⟨v', hv', hsame.id.trans hid, hsame.documentId.trans (hdoc.trans heid)⟩
  | _ => cases hact

theorem neverBackwards_of_inOrder (h : history tenants ts = some db)
    (hts : ∀ t ∈ ts, t.retires documentId = false) (hin : ActivatesInOrder documentId ts) :
    NeverBackwards tenants ts documentId := by
  rintro before between after m m' n n' rfl hm hm' hn hn'
  have hts₁ : ∀ t ∈ before, t.retires documentId = false :=
    fun t ht => hts t (List.mem_append_left _ (List.mem_append_left _ ht))
  have hts₂ : ∀ t ∈ before ++ between, t.retires documentId = false :=
    fun t ht => hts t (List.mem_append_left _ ht)
  obtain ⟨v, hv, hvdoc, hlast, rfl⟩ := (pointsToNumber_last hm hts₁).mp hn
  obtain ⟨v', hv', hvdoc', hlast', rfl⟩ := (pointsToNumber_last hm' hts₂).mp hn'
  -- both rows are still there at the end
  obtain ⟨r, hr, hrest⟩ := Machine.run_append_some.mp h
  obtain rfl := Option.some.inj (hm'.symm.trans hr)
  obtain ⟨q, hq, hbetween⟩ := Machine.run_append_some.mp hm'
  obtain rfl := Option.some.inj (hm.symm.trans hq)
  obtain ⟨u, hu, hsame⟩ := version_stays_run (history_coherent hm) hbetween hv
  obtain ⟨w, hw, hvw⟩ := version_stays_run (history_coherent hm') hrest hu
  obtain ⟨w', hw', hvw'⟩ := version_stays_run (history_coherent hm') hrest hv'
  have hsw := hsame.trans hvw
  rw [← hsw.versionNumber, ← hvw'.versionNumber]
  by_cases heq : w.id = w'.id
  · rw [Table.eq_of_key_eq hw hw' heq]
  · -- otherwise the second version was activated between, after the first
    have hmem : v.id ∈ activated documentId before := List.mem_of_getLast? hlast
    have hmem' : v'.id ∈ activated documentId between := by
      rw [activated, List.filterMap_append, List.getLast?_append] at hlast'
      cases hb : (between.filterMap (Transaction.activates documentId)).getLast? with
      | none =>
          rw [hb, Option.none_or] at hlast'
          have hid : v.id = v'.id := Option.some.inj (hlast.symm.trans hlast')
          exact absurd (by rw [hsw.id, hvw'.id, hid]) heq
      | some x =>
          rw [hb, Option.some_or] at hlast'
          obtain rfl := Option.some.inj hlast'
          exact List.mem_of_getLast? hb
    have hsplit : activated documentId (before ++ between ++ after) =
        activated documentId before ++ activated documentId (between ++ after) := by
      rw [List.append_assoc, activated, List.filterMap_append]
      rfl
    rw [ActivatesInOrder, hsplit] at hin
    have hmem'' : v'.id ∈ activated documentId (between ++ after) := by
      rw [activated, List.filterMap_append]
      exact List.mem_append_left _ hmem'
    have hle := (List.pairwise_append.mp hin).2.2 v.id hmem v'.id hmem''
    rw [← hsw.id, ← hvw'.id] at hle
    rcases Nat.lt_or_eq_of_le hle with hlt | hsameAt
    · obtain ⟨-, hord⟩ := registration_order h
      have hdoc : w.documentId = w'.documentId := by
        rw [hsw.documentId, hvw'.documentId, hvdoc, hvdoc']
      exact (hord w hw w' hw' hdoc hlt).le
    · exact absurd (registeredAt_inj h hw hsameAt) heq

/-- The activations of a prefix come in the order of the registrations when no
step back is seen. -/
theorem inOrder_of_neverBackwards (h : history tenants ts = some db)
    (hts : ∀ t ∈ ts, t.retires documentId = false)
    (hnever : NeverBackwards tenants ts documentId) {before after : List Transaction}
    (hsplit : ts = before ++ after) :
    (activated documentId before).Pairwise fun w v => registeredAt w ts ≤ registeredAt v ts := by
  induction before using List.reverseRecOn generalizing after with
  | nil => exact List.Pairwise.nil
  | append_singleton before t ih =>
      have hprev := ih (hsplit.trans (List.append_assoc ..))
      by_cases hact : ∃ v tenantId, t = .activate documentId v tenantId
      · obtain ⟨v, tenantId, rfl⟩ := hact
        rw [activated_concat, List.pairwise_append]
        refine ⟨hprev, List.pairwise_singleton .., fun w hw v' hv' => ?_⟩
        obtain rfl := List.mem_singleton.mp hv'
        -- look at the states right after the two activations
        obtain ⟨t', ht', hwt⟩ := List.mem_filterMap.mp hw
        obtain ⟨pre, mid, rfl⟩ := List.append_of_mem ht'
        obtain ⟨tenantId', rfl⟩ : ∃ tenantId', t' = .activate documentId w tenantId' := by
          cases t' with
          | activate d w' tenantId' =>
              have hd : d = documentId ∧ w' = w := by
                simpa [Transaction.activates] using hwt
              obtain ⟨rfl, rfl⟩ := hd
              exact ⟨tenantId', rfl⟩
          | _ => cases hwt
        let first := pre ++ [.activate documentId w tenantId']
        let between := mid ++ [.activate documentId v' tenantId]
        have hts' : ts = first ++ between ++ after := by
          simp only [hsplit, first, between, List.append_assoc, List.cons_append, List.nil_append]
        obtain ⟨m', hm', hafter⟩ := Machine.run_append_some.mp (hts' ▸ h)
        obtain ⟨m, hm, hbetween⟩ := Machine.run_append_some.mp hm'
        have hsub : ∀ t ∈ first ++ between, t.retires documentId = false :=
          fun t ht => hts t (hts' ▸ List.mem_append_left _ ht)
        have hsub' : ∀ t ∈ first, t.retires documentId = false :=
          fun t ht => hsub t (List.mem_append_left _ ht)
        have hlast : (activated documentId first).getLast? = some w := by
          rw [activated_concat, List.getLast?_concat]
        have hlast' : (activated documentId (first ++ between)).getLast? = some v' := by
          rw [← List.append_assoc, activated_concat, List.getLast?_concat]
        obtain ⟨x, hx, hxid, hxdoc⟩ := activated_row hm (List.mem_of_getLast? hlast)
        obtain ⟨y, hy, hyid, hydoc⟩ := activated_row hm' (List.mem_of_getLast? hlast')
        have hle : x.versionNumber ≤ y.versionNumber :=
          hnever first between after m m' x.versionNumber y.versionNumber hts' hm hm'
            ((pointsToNumber_last hm hsub').mpr ⟨x, hx, hxdoc, by rw [hlast, hxid], rfl⟩)
            ((pointsToNumber_last hm' hsub).mpr ⟨y, hy, hydoc, by rw [hlast', hyid], rfl⟩)
        obtain ⟨u, hu, hxu⟩ := version_stays_run (history_coherent hm) hbetween hx
        obtain ⟨x', hx', hux⟩ := version_stays_run (history_coherent hm') hafter hu
        obtain ⟨y', hy', hyy⟩ := version_stays_run (history_coherent hm') hafter hy
        have hxx := hxu.trans hux
        by_contra hgt
        obtain ⟨-, hord⟩ := registration_order h
        have hlt : registeredAt y'.id ts < registeredAt x'.id ts := by
          rw [hyy.id, hyid, hxx.id, hxid]
          omega
        have hdoc : y'.documentId = x'.documentId := by
          rw [hyy.documentId, hydoc, hxx.documentId, hxdoc]
        have hnum := hord y' hy' x' hx' hdoc hlt
        rw [hyy.versionNumber, hxx.versionNumber] at hnum
        omega
      · rw [activated_concat_of_ne fun v tenantId he => hact ⟨v, tenantId, he⟩]
        exact hprev

/-- The active version of a document that is never tombstoned goes backwards
exactly when a version is activated after one that was registered later. -/
theorem never_backwards_iff_activates_in_order (tenants : List Uuid) (ts : List Transaction)
    (db : Db) (documentId : Uuid) (h : history tenants ts = some db)
    (hts : ∀ t ∈ ts, t.retires documentId = false) :
    NeverBackwards tenants ts documentId ↔ ActivatesInOrder documentId ts :=
  ⟨fun hnever => inOrder_of_neverBackwards h hts hnever (List.append_nil ts).symm,
    neverBackwards_of_inOrder h hts⟩

/-- Two uploads one after the other. -/
def uploadsInTurn : List Transaction := twoUploads.plan false ++ twoUploads.plan true

set_option maxRecDepth 4000 in
theorem uploadsInTurn_isSome : (history [7] uploadsInTurn).isSome = true := by decide

set_option maxRecDepth 4000 in
theorem never_backwards_iff_activates_in_order_uploadsInTurn :
    NeverBackwards [7] uploadsInTurn 1 ↔ ActivatesInOrder 1 uploadsInTurn := by
  obtain ⟨db, h⟩ := Option.isSome_iff_exists.mp uploadsInTurn_isSome
  exact never_backwards_iff_activates_in_order [7] uploadsInTurn db 1 h (by decide)

/-- The second upload runs from registration to its end while the first waits for
its activation. -/
def overtakenUpload : List Transaction :=
  (twoUploads.plan false).take 7 ++ twoUploads.plan true ++ (twoUploads.plan false).drop 7

set_option maxRecDepth 4000 in
theorem overtakenUpload_isSome : (history [7] overtakenUpload).isSome = true := by decide

set_option maxRecDepth 4000 in
theorem overtakenUpload_goes_backwards :
    ∃ db, history [7] overtakenUpload = some db ∧
      (∀ t ∈ overtakenUpload, t.retires 1 = false) ∧ ¬ NeverBackwards [7] overtakenUpload 1 := by
  obtain ⟨db, h⟩ := Option.isSome_iff_exists.mp overtakenUpload_isSome
  have hts : ∀ t ∈ overtakenUpload, t.retires 1 = false := by decide
  refine ⟨db, h, hts, fun hnever => ?_⟩
  have hin := inOrder_of_neverBackwards h hts hnever (List.append_nil _).symm
  revert hin
  decide

end Ally
