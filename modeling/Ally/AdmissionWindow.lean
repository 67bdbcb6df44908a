import Ally.Admission

/-!
# The limiters are sliding windows

The order of the table is the order in which its entries expire, so that what the eviction
leaves are the hosts with an attempt in the last minute.
-/

namespace Ally.Admission

open OrderedDict Window

variable {ι : Type} {settings : AdmissionSettings} {now clock : ℚ} {host : String}
  {admitted : List (String × ℚ)} {table : Attempts}

theorem stale_iff {t : ℚ} : stale now t = true ↔ t ≤ now - 60 := decide_eq_true_iff

theorem stale_mono {t s : ℚ} (h : t ≤ s) (hs : stale now s = true) : stale now t = true :=
  stale_iff.mpr (h.trans (stale_iff.mp hs))

theorem stale_later {t : ℚ} (h : clock ≤ now) (ht : stale clock t = true) :
    stale now t = true := by
  have := stale_iff.mp ht
  exact stale_iff.mpr (by linarith)

theorem not_stale_self : stale now now = false := by
  simp only [stale, decide_eq_false_iff_not]
  linarith

/-! ### Pruning and eviction -/

theorem prune_eq_filter {attempts : List ℚ} (h : attempts.Pairwise (· ≤ ·)) :
    prune now attempts = attempts.filter fun t => !stale now t :=
  dropWhile_eq_filter (h.imp fun hle hs => stale_mono hle hs)

/-- The entry has an attempt that is not stale. -/
def isLive (now : ℚ) (e : String × List ℚ) : Bool := e.2.any fun t => !stale now t

theorem isLive_iff {e : String × List ℚ} :
    isLive now e = true ↔ ∃ t ∈ e.2, stale now t = false := by
  simp [isLive]

theorem isLive_eq_last {e : String × List ℚ} {last : ℚ} (h : e.2.Pairwise (· ≤ ·))
    (hlast : e.2.getLast? = some last) : isLive now e = !stale now last := by
  obtain ⟨init, hinit⟩ := List.getLast?_eq_some_iff.mp hlast
  rw [hinit, List.pairwise_append] at h
  rw [Bool.eq_iff_iff, isLive_iff, Bool.not_eq_true', hinit]
  constructor
  · rintro ⟨t, ht, hlive⟩
    rcases List.mem_append.mp ht with ht | ht
    · have hle : t ≤ last := h.2.2 t ht last List.mem_cons_self
      by_contra hs
      rw [stale_mono hle (by simpa using hs)] at hlive
      cases hlive
    · rw [← List.mem_singleton.mp ht]
      exact hlive
  · intro hlive
    exact ⟨last, by simp, hlive⟩

/-- An entry stands before those that expire later. -/
def Before (a b : String × List ℚ) : Prop := ∀ x ∈ a.2, ∃ y ∈ b.2, x ≤ y

theorem Before.isLive {a b : String × List ℚ} (h : Before a b) (ha : isLive now a = true) :
    isLive now b = true := by
  obtain ⟨x, hx, hlive⟩ := isLive_iff.mp ha
  obtain ⟨y, hy, hle⟩ := h x hx
  refine isLive_iff.mpr ⟨y, hy, ?_⟩
  by_contra hs
  rw [stale_mono hle (by simpa using hs)] at hlive
  cases hlive

theorem evict_eq (hnonempty : ∀ e ∈ table, e.2 ≠ []) (hsorted : ∀ e ∈ table, e.2.Pairwise (· ≤ ·))
    (hordered : table.Pairwise Before) :
    evict now table = some (table.filter (isLive now)) := by
  induction table with
  | nil => rfl
  | cons e rest ih =>
      obtain ⟨host, attempts⟩ := e
      have hne : attempts ≠ [] := hnonempty (host, attempts) List.mem_cons_self
      have hlast : attempts.getLast? = some (attempts.getLast hne) :=
        List.getLast?_eq_some_getLast hne
      have hsort := hsorted (host, attempts) List.mem_cons_self
      have hlive : isLive now (host, attempts) = !stale now (attempts.getLast hne) :=
        isLive_eq_last hsort hlast
      obtain ⟨hbefore, hrest⟩ := List.pairwise_cons.mp hordered
      rw [evict, hlast, Option.bind_some]
      by_cases hs : stale now (attempts.getLast hne) = true
      · rw [if_pos hs, List.filter_cons_of_neg (by rw [hlive, hs]; decide)]
        exact ih (fun e he => hnonempty e (List.mem_cons_of_mem _ he))
          (fun e he => hsorted e (List.mem_cons_of_mem _ he)) hrest
      · have hhead : isLive now (host, attempts) = true := by simpa [hlive] using hs
        rw [if_neg hs, List.filter_eq_self.mpr]
        intro e he
        rcases List.mem_cons.mp he with rfl | he
        · exact hhead
        · exact (hbefore e he).isLive hhead

/-! ### What the table remembers -/

/-- The times at which attempts of the host were admitted. -/
def timesOf (host : String) (admitted : List (String × ℚ)) : List ℚ :=
  (admitted.filter fun a => a.1 = host).map Prod.snd

theorem mem_timesOf {t : ℚ} : t ∈ timesOf host admitted ↔ (host, t) ∈ admitted := by
  simp [timesOf]

@[simp] theorem timesOf_concat (host : String) (a : String × ℚ) :
    timesOf host (admitted ++ [a]) =
      timesOf host admitted ++ if a.1 = host then [a.2] else [] := by
  by_cases h : a.1 = host <;> simp [timesOf, h]

/-- The table holds what the last minute needs of the admitted attempts. -/
structure Remembers (clock : ℚ) (admitted : List (String × ℚ)) (table : Attempts) : Prop where
  sorted : admitted.Pairwise fun a b => a.2 ≤ b.2
  past : ∀ a ∈ admitted, a.2 ≤ clock
  nodup : table.keys.Nodup
  nonempty : ∀ e ∈ table, e.2 ≠ []
  ordered : table.Pairwise Before
  tracked : ∀ e ∈ table, ∃ old, timesOf e.1 admitted = old ++ e.2 ∧ ∀ t ∈ old, stale clock t = true
  forgotten : ∀ h ∉ table.keys, ∀ t ∈ timesOf h admitted, stale clock t = true

theorem remembers_nil : Remembers clock [] [] where
  sorted := List.Pairwise.nil
  past := by simp
  nodup := List.nodup_nil
  nonempty := by simp
  ordered := List.Pairwise.nil
  tracked := by simp
  forgotten := by simp [timesOf]

namespace Remembers

theorem later (h : Remembers clock admitted table) (hle : clock ≤ now) :
    Remembers now admitted table where
  sorted := h.sorted
  past a ha := (h.past a ha).trans hle
  nodup := h.nodup
  nonempty := h.nonempty
  ordered := h.ordered
  tracked e he := by
    obtain ⟨old, htimes, hold⟩ := h.tracked e he
    exact ⟨old, htimes, fun t ht => stale_later hle (hold t ht)⟩
  forgotten k hk t ht := stale_later hle (h.forgotten k hk t ht)

theorem timesOf_sorted (h : Remembers clock admitted table) (host : String) :
    (timesOf host admitted).Pairwise (· ≤ ·) :=
  List.pairwise_map.mpr (h.sorted.sublist List.filter_sublist)

theorem deque_sorted (h : Remembers clock admitted table) {e : String × List ℚ} (he : e ∈ table) :
    e.2.Pairwise (· ≤ ·) := by
  obtain ⟨old, htimes, -⟩ := h.tracked e he
  have hsorted := h.timesOf_sorted e.1
  rw [htimes] at hsorted
  exact (List.pairwise_append.mp hsorted).2.1

theorem deque_past (h : Remembers clock admitted table) {e : String × List ℚ} (he : e ∈ table)
    {t : ℚ} (ht : t ∈ e.2) : t ≤ clock := by
  obtain ⟨old, htimes, -⟩ := h.tracked e he
  have hmem : t ∈ timesOf e.1 admitted := htimes ▸ List.mem_append_right old ht
  exact h.past _ (mem_timesOf.mp hmem)

/-- The live attempts of a host are those of its pruned deque. -/
theorem live_of_mem (h : Remembers now admitted table) {e : String × List ℚ} (he : e ∈ table) :
    ((timesOf e.1 admitted).filter fun t => !stale now t) = prune now e.2 := by
  obtain ⟨old, htimes, hold⟩ := h.tracked e he
  have hnone : (old.filter fun t => !stale now t) = [] :=
    List.filter_eq_nil_iff.mpr fun t ht => by simp [hold t ht]
  rw [htimes, List.filter_append, hnone, List.nil_append, prune_eq_filter (h.deque_sorted he)]

theorem live_of_notMem (h : Remembers now admitted table) (hhost : host ∉ table.keys) :
    ((timesOf host admitted).filter fun t => !stale now t) = [] :=
  List.filter_eq_nil_iff.mpr fun t ht => by simp [h.forgotten host hhost t ht]

theorem evict_eq (h : Remembers clock admitted table) :
    evict now table = some (table.filter (isLive now)) :=
  Admission.evict_eq h.nonempty (fun _ he => h.deque_sorted he) h.ordered

/-- The eviction forgets stale attempts only. -/
theorem evicted (h : Remembers now admitted table) :
    Remembers now admitted (table.filter (isLive now)) where
  sorted := h.sorted
  past := h.past
  nodup := nodup_keys_filter h.nodup _
  nonempty e he := h.nonempty e (List.mem_filter.mp he).1
  ordered := h.ordered.sublist List.filter_sublist
  tracked e he := h.tracked e (List.mem_filter.mp he).1
  forgotten k hk t ht := by
    by_cases hkey : k ∈ table.keys
    · obtain ⟨attempts, hmem⟩ := mem_keys.mp hkey
      have hstale : isLive now (k, attempts) = false := by
        by_contra hlive
        exact hk (mem_keys.mpr ⟨attempts, List.mem_filter.mpr ⟨hmem, by simpa using hlive⟩⟩)
      obtain ⟨old, htimes, hold⟩ := h.tracked _ hmem
      rw [htimes] at ht
      rcases List.mem_append.mp ht with ht | ht
      · exact hold t ht
      · by_contra hs
        have hlive : isLive now (k, attempts) = true := isLive_iff.mpr ⟨t, ht, by simpa using hs⟩
        rw [hlive] at hstale
        cases hstale
    · exact h.forgotten k hkey t ht

/-- Pruning the deque of a host that has a live attempt. -/
theorem pruned (h : Remembers now admitted table) (hlive : ∀ e ∈ table, isLive now e = true) :
    Remembers now admitted (table.modify host (prune now)) where
  sorted := h.sorted
  past := h.past
  nodup := by simpa using h.nodup
  nonempty e he := by
    rcases mem_modify.mp he with ⟨he, -⟩ | ⟨attempts, hmem, rfl⟩
    · exact h.nonempty e he
    · obtain ⟨t, ht, hs⟩ := isLive_iff.mp (hlive _ hmem)
      rw [prune_eq_filter (h.deque_sorted hmem)]
      exact List.ne_nil_of_mem (List.mem_filter.mpr ⟨ht, by simpa using hs⟩)
  ordered := by
    refine List.pairwise_map.mpr (h.ordered.imp_of_mem fun {a b} ha hb hab => ?_)
    have hleft : Before (if a.1 = host then (a.1, prune now a.2) else a) b := by
      split
      · exact fun x hx => hab x (List.dropWhile_subset _ hx)
      · exact hab
    intro x hx
    obtain ⟨y, hy, hxy⟩ := hleft x hx
    split
    · -- an attempt that is pruned is older than one that stays
      by_cases hs : stale now y = true
      · obtain ⟨t, ht, hlive⟩ := isLive_iff.mp (hlive b hb)
        refine ⟨t, ?_, hxy.trans ?_⟩
        · rw [prune_eq_filter (h.deque_sorted hb)]
          exact List.mem_filter.mpr ⟨ht, by simpa using hlive⟩
        · by_contra hlt
          rw [stale_mono (not_le.mp hlt).le hs] at hlive
          cases hlive
      · refine ⟨y, ?_, hxy⟩
        rw [prune_eq_filter (h.deque_sorted hb)]
        exact List.mem_filter.mpr ⟨hy, by simpa using hs⟩
    · exact ⟨y, hy, hxy⟩
  tracked e he := by
    rcases mem_modify.mp he with ⟨he, -⟩ | ⟨attempts, hmem, rfl⟩
    · exact h.tracked e he
    · obtain ⟨old, htimes, hold⟩ := h.tracked _ hmem
      refine ⟨old ++ attempts.takeWhile (stale now), ?_, fun t ht => ?_⟩
      · rw [htimes, List.append_assoc, prune, List.takeWhile_append_dropWhile]
      · rcases List.mem_append.mp ht with ht | ht
        · exact hold t ht
        · exact List.mem_takeWhile_imp ht
  forgotten k hk := h.forgotten k (by simpa using hk)

/-- The attempt of a host is admitted and its entry moves to the end. -/
theorem recorded (h : Remembers now admitted table) {attempts : List ℚ}
    (htimes : ∃ old, timesOf host admitted = old ++ attempts ∧ ∀ t ∈ old, stale now t = true) :
    Remembers now (admitted ++ [(host, now)])
      (table.delete host ++ [(host, attempts ++ [now])]) where
  sorted := by
    rw [List.pairwise_append]
    refine ⟨h.sorted, List.pairwise_singleton _ _, fun a ha b hb => ?_⟩
    rw [List.mem_singleton.mp hb]
    exact h.past a ha
  past a ha := by
    rcases List.mem_append.mp ha with ha | ha
    · exact h.past a ha
    · rw [List.mem_singleton.mp ha]
  nodup := by
    rw [keys_append, keys_singleton, List.nodup_append]
    refine ⟨nodup_keys_filter h.nodup _, List.nodup_singleton host, fun a ha b hb heq => ?_⟩
    exact (mem_keys_delete.mp ha).2 (heq.trans (List.mem_singleton.mp hb))
  nonempty e he := by
    rcases List.mem_append.mp he with he | he
    · exact h.nonempty e (List.mem_filter.mp he).1
    · rw [List.mem_singleton.mp he]
      simp
  ordered := by
    rw [List.pairwise_append]
    refine ⟨h.ordered.sublist List.filter_sublist, List.pairwise_singleton _ _, ?_⟩
    intro a ha b hb x hx
    rw [List.mem_singleton.mp hb]
    exact ⟨now, by simp, h.deque_past (List.mem_filter.mp ha).1 hx⟩
  tracked e he := by
    rcases List.mem_append.mp he with he | he
    · obtain ⟨hmem, hne⟩ := List.mem_filter.mp he
      obtain ⟨old, htimes, hold⟩ := h.tracked e hmem
      refine ⟨old, ?_, hold⟩
      rw [timesOf_concat, if_neg (Ne.symm (by simpa using hne)), List.append_nil, htimes]
    · obtain ⟨old, htimes, hold⟩ := htimes
      rw [List.mem_singleton.mp he]
      refine ⟨old, ?_, hold⟩
      rw [timesOf_concat, if_pos rfl, htimes, List.append_assoc]
  forgotten k hk t ht := by
    rw [keys_append, keys_singleton, List.mem_append, List.mem_singleton, mem_keys_delete] at hk
    have hne : host ≠ k := fun heq => hk (.inr heq.symm)
    rw [timesOf_concat, if_neg hne, List.append_nil] at ht
    exact h.forgotten k (fun hkey => hk (.inl ⟨hkey, hne.symm⟩)) t ht

end Remembers

/-! ### The counts of the reference -/

theorem liveOf_length :
    (liveOf host now admitted).length =
      ((timesOf host admitted).filter fun t => !stale now t).length := by
  rw [liveOf, live, timesOf, List.filter_map, List.length_map, List.filter_filter,
    List.filter_filter]
  congr 1
  apply List.filter_congr
  intro a ha
  simp [Bool.and_comm]

theorem Remembers.liveHosts_length (h : Remembers now admitted table)
    (hlive : ∀ e ∈ table, isLive now e = true) :
    (liveHosts now admitted).length = table.length := by
  have hperm : (liveHosts now admitted).Perm table.keys := by
    refine (List.perm_ext_iff_of_nodup (List.nodup_dedup _) h.nodup).mpr fun k => ?_
    rw [List.mem_dedup]
    constructor
    · intro hk
      obtain ⟨⟨k', t⟩, ha, rfl⟩ := List.mem_map.mp hk
      obtain ⟨ha, hs⟩ := List.mem_filter.mp ha
      by_contra hkey
      rw [h.forgotten _ hkey t (mem_timesOf.mpr ha)] at hs
      cases hs
    · intro hk
      obtain ⟨attempts, hmem⟩ := mem_keys.mp hk
      obtain ⟨t, ht, hs⟩ := isLive_iff.mp (hlive _ hmem)
      obtain ⟨old, htimes, -⟩ := h.tracked _ hmem
      have hadm : (k, t) ∈ admitted := mem_timesOf.mp (htimes ▸ List.mem_append_right old ht)
      exact List.mem_map.mpr ⟨(k, t), List.mem_filter.mpr ⟨hadm, by simpa using hs⟩, rfl⟩
  rw [hperm.length_eq, keys, List.length_map]

/-! ### The calls of the limiters -/

namespace Remembers

/-- After the eviction every entry is live. -/
theorem evicted_live : ∀ e ∈ table.filter (isLive now), isLive now e = true :=
  fun _ he => (List.mem_filter.mp he).2

theorem liveOf_ne_nil_iff (h : Remembers now admitted table)
    (hlive : ∀ e ∈ table, isLive now e = true) :
    liveOf host now admitted ≠ [] ↔ host ∈ table.keys := by
  rw [← List.length_pos_iff, liveOf_length]
  constructor
  · intro hpos
    by_contra hkey
    rw [h.live_of_notMem hkey] at hpos
    cases hpos
  · intro hkey
    obtain ⟨attempts, hmem⟩ := mem_keys.mp hkey
    obtain ⟨t, ht, hs⟩ := isLive_iff.mp (hlive _ hmem)
    obtain ⟨old, htimes, -⟩ := h.tracked _ hmem
    have hmem' : t ∈ timesOf host admitted := htimes ▸ List.mem_append_right old ht
    exact List.length_pos_of_mem (List.mem_filter.mpr ⟨hmem', by simpa using hs⟩)

end Remembers

/-- The table that a call has pruned for its host, in which a new host has an empty deque. -/
structure Prepared (now : ℚ) (admitted : List (String × ℚ)) (host : String)
    (table prepared : Attempts) : Prop where
  attempts : attemptsOf host prepared = (timesOf host admitted).filter fun t => !stale now t
  known : host ∈ table.keys → prepared = table.modify host (prune now)
  fresh : host ∉ table.keys → prepared.delete host = table ∧ attemptsOf host prepared = []
  recorded : record host now prepared =
    table.delete host ++ [(host, attemptsOf host prepared ++ [now])]

theorem Remembers.prepared (h : Remembers now admitted table) :
    (host ∈ table.keys → Prepared now admitted host table (table.modify host (prune now))) ∧
    (host ∉ table.keys →
      Prepared now admitted host table ((table ++ [(host, [])]).modify host (prune now))) := by
  constructor
  · intro hkey
    obtain ⟨attempts, hmem⟩ := mem_keys.mp hkey
    have hattempts : attemptsOf host (table.modify host (prune now)) = prune now attempts := by
      rw [attemptsOf, get?_modify h.nodup hmem, Option.getD_some]
    refine ⟨?_, fun _ => rfl, fun hno => absurd hkey hno, ?_⟩
    · rw [hattempts, h.live_of_mem hmem]
    · rw [Admission.record, hattempts, modify_modify, moveToEnd_modify h.nodup hmem,
        Function.comp_apply]
  · intro hkey
    have hnodup : (keys (table ++ [(host, [])])).Nodup := by
      rw [← set_of_notMem hkey]
      exact nodup_keys_set h.nodup
    have hmem : (host, []) ∈ table ++ [(host, ([] : List ℚ))] := by simp
    have hdelete : delete host (table ++ [(host, ([] : List ℚ))]) = table := by
      rw [delete, List.filter_append, ← delete, delete_of_notMem hkey]
      simp
    have hattempts : attemptsOf host (modify host (prune now) (table ++ [(host, [])])) = [] := by
      rw [attemptsOf, get?_modify hnodup hmem, Option.getD_some]
      rfl
    refine ⟨?_, fun hyes => absurd hyes hkey, fun _ => ⟨?_, hattempts⟩, ?_⟩
    · rw [hattempts, h.live_of_notMem hkey]
    · rw [delete_modify, hdelete]
    · rw [Admission.record, hattempts, modify_modify, moveToEnd_modify hnodup hmem, hdelete,
        delete_of_notMem hkey]
      rfl

theorem Remembers.track_cases (settings : AdmissionSettings) (host : String)
    (h : Remembers now admitted table) (hlive : ∀ e ∈ table, isLive now e = true) :
    (track settings host table = none ∧ allows settings host now admitted = false) ∨
      ∃ found, track settings host table = some found ∧
        Prepared now admitted host table (found.modify host (prune now)) ∧
        (host ∉ table.keys → table.length < settings.max_auth_clients) ∧
        allows settings host now admitted =
          decide ((attemptsOf host (found.modify host (prune now))).length <
            settings.auth_attempts_per_minute) := by
  have hcount : ∀ prepared, Prepared now admitted host table prepared →
      (liveOf host now admitted).length = (attemptsOf host prepared).length := by
    intro prepared hprepared
    rw [liveOf_length, hprepared.attempts]
  by_cases hkey : host ∈ table.keys
  · right
    have hprepared := h.prepared.1 hkey
    refine ⟨table, if_pos hkey, hprepared, fun hno => absurd hkey hno, ?_⟩
    have hhost : liveOf host now admitted ≠ [] := (h.liveOf_ne_nil_iff hlive).mpr hkey
    simp [allows, hhost, hcount _ hprepared]
  · have hhost : liveOf host now admitted = [] := by
      by_contra hne
      exact hkey ((h.liveOf_ne_nil_iff hlive).mp hne)
    by_cases hfull : settings.max_auth_clients ≤ table.length
    · left
      refine ⟨by rw [track, if_neg hkey, if_pos hfull], ?_⟩
      simp [allows, hhost, h.liveHosts_length hlive, hfull]
    · right
      have hprepared := h.prepared.2 hkey
      refine ⟨_, by rw [track, if_neg hkey, if_neg hfull, set_of_notMem hkey], hprepared,
        fun _ => not_le.mp hfull, ?_⟩
      have hroom := not_le.mp hfull
      simp [allows, hhost, h.liveHosts_length hlive, hroom, ← hcount _ hprepared]

section Prepared

variable {prepared : Attempts}

theorem Prepared.remembers_record (hp : Prepared now admitted host table prepared)
    (h : Remembers now admitted table) :
    Remembers now (admitted ++ [(host, now)]) (record host now prepared) := by
  rw [hp.recorded]
  apply h.recorded
  rw [hp.attempts]
  refine ⟨(timesOf host admitted).takeWhile (stale now), ?_, fun t ht => List.mem_takeWhile_imp ht⟩
  rw [← prune_eq_filter (h.timesOf_sorted host), prune, List.takeWhile_append_dropWhile]

theorem Prepared.length_record (hp : Prepared now admitted host table prepared)
    (hcap : table.length ≤ settings.max_auth_clients)
    (hroom : host ∉ table.keys → table.length < settings.max_auth_clients) :
    (record host now prepared).length ≤ settings.max_auth_clients := by
  rw [hp.recorded, List.length_append, List.length_singleton]
  by_cases hkey : host ∈ table.keys
  · obtain ⟨attempts, hmem⟩ := mem_keys.mp hkey
    have hlt : (table.delete host).length < table.length :=
      List.length_filter_lt_length_iff_exists.mpr ⟨_, hmem, by simp⟩
    omega
  · rw [delete_of_notMem hkey]
    exact hroom hkey

theorem Prepared.attempts_ne_nil (hp : Prepared now admitted host table prepared)
    (h : Remembers now admitted table) (hlive : ∀ e ∈ table, isLive now e = true)
    (hkey : host ∈ table.keys) : attemptsOf host prepared ≠ [] := by
  have hne := (h.liveOf_ne_nil_iff hlive).mpr hkey
  rwa [← List.length_pos_iff, liveOf_length, ← hp.attempts, List.length_pos_iff] at hne

/-- A host that the table did not know is refused by the attempts in flight only. -/
theorem Prepared.known_of_full (hp : Prepared now admitted host table prepared)
    (hfull : settings.auth_attempts_per_minute ≤ (attemptsOf host prepared).length) :
    host ∈ table.keys := by
  by_contra hkey
  rw [(hp.fresh hkey).2] at hfull
  have hpos := settings.attempts_pos
  rw [List.length_nil] at hfull
  omega

end Prepared

/-- A call evicts the stale hosts and answers as the window does. -/
theorem allowAttempt_spec (host : String) (h : Remembers clock admitted table) (hle : clock ≤ now)
    (hcap : table.length ≤ settings.max_auth_clients) :
    ∃ table', allowAttempt settings host now table =
        some (table', allows settings host now admitted) ∧
      Remembers now (if allows settings host now admitted then admitted ++ [(host, now)]
        else admitted) table' ∧
      table'.length ≤ settings.max_auth_clients := by
  have hnow := (h.later hle).evicted
  have hlive : ∀ e ∈ table.filter (isLive now), isLive now e = true := Remembers.evicted_live
  have hlen := (List.length_filter_le (isLive now) table).trans hcap
  rw [allowAttempt, h.evict_eq, Option.map_some]
  rcases hnow.track_cases settings host hlive with
    ⟨htrack, hallows⟩ | ⟨found, htrack, hp, hroom, hallows⟩
  · rw [htrack, hallows]
    exact ⟨_, rfl, hnow, hlen⟩
  · rw [htrack, hallows]
    by_cases hfull : settings.auth_attempts_per_minute ≤
        (attemptsOf host (found.modify host (prune now))).length
    · have hno : ¬ (attemptsOf host (found.modify host (prune now))).length <
          settings.auth_attempts_per_minute := by omega
      have hkey := hp.known_of_full hfull
      rw [decide_eq_false hno]
      refine ⟨found.modify host (prune now), by simp only [if_pos hfull], ?_, ?_⟩
      · rw [hp.known hkey]
        exact hnow.pruned hlive
      · rw [hp.known hkey, length_modify]
        exact hlen
    · have hyes : (attemptsOf host (found.modify host (prune now))).length <
          settings.auth_attempts_per_minute := by omega
      rw [decide_eq_true hyes]
      refine ⟨record host now (found.modify host (prune now)), by simp only [if_neg hfull], ?_, ?_⟩
      · exact hp.remembers_record hnow
      · exact hp.length_record hlen hroom

theorem admit_spec (host : String) {s : PairingAdmission} (h : Remembers clock admitted s.attempts)
    (hle : clock ≤ now) (hcap : s.attempts.length ≤ settings.max_auth_clients) {n : ℕ}
    (hn : s.inflight = n) :
    ∃ s', PairingAdmission.admitHost settings host now s =
        some (s', allows settings host now admitted && decide (n < settings.max_auth_inflight)) ∧
      Remembers now (if allows settings host now admitted && decide (n < settings.max_auth_inflight)
        then admitted ++ [(host, now)] else admitted) s'.attempts ∧
      s'.attempts.length ≤ settings.max_auth_clients ∧
      s'.inflight = if allows settings host now admitted && decide (n < settings.max_auth_inflight)
        then n + 1 else n := by
  have hnow := (h.later hle).evicted
  have hlive : ∀ e ∈ s.attempts.filter (isLive now), isLive now e = true :=
    Remembers.evicted_live
  have hlen := (List.length_filter_le (isLive now) s.attempts).trans hcap
  rw [PairingAdmission.admitHost, h.evict_eq, Option.map_some]
  rcases hnow.track_cases settings host hlive with
    ⟨htrack, hallows⟩ | ⟨found, htrack, hp, hroom, hallows⟩
  · rw [htrack, hallows]
    exact ⟨_, rfl, hnow, hlen, hn⟩
  · rw [htrack, hallows]
    by_cases hfull : settings.auth_attempts_per_minute ≤
          (attemptsOf host (found.modify host (prune now))).length ∨
        (settings.max_auth_inflight : ℤ) ≤ s.inflight
    · have hno : (decide ((attemptsOf host (found.modify host (prune now))).length <
          settings.auth_attempts_per_minute) && decide (n < settings.max_auth_inflight)) = false := by
        rw [Bool.and_eq_false_iff, decide_eq_false_iff_not, decide_eq_false_iff_not]
        omega
      rw [hno]
      by_cases hkey : host ∈ keys (s.attempts.filter (isLive now))
      · have hne := hp.attempts_ne_nil hnow hlive hkey
        refine ⟨⟨found.modify host (prune now), s.inflight⟩, ?_, ?_, ?_, hn⟩
        · simp only [if_pos hfull, List.isEmpty_iff, if_neg hne]
        · rw [hp.known hkey]
          exact hnow.pruned hlive
        · rw [hp.known hkey, length_modify]
          exact hlen
      · obtain ⟨hdelete, hempty⟩ := hp.fresh hkey
        refine ⟨⟨s.attempts.filter (isLive now), s.inflight⟩, ?_, hnow, hlen, hn⟩
        dsimp only
        rw [if_pos hfull, hempty, hdelete]
        rfl
    · have hyes : (decide ((attemptsOf host (found.modify host (prune now))).length <
          settings.auth_attempts_per_minute) && decide (n < settings.max_auth_inflight)) = true := by
        rw [Bool.and_eq_true, decide_eq_true_eq, decide_eq_true_eq]
        omega
      rw [hyes]
      refine ⟨⟨record host now (found.modify host (prune now)), s.inflight + 1⟩, ?_, ?_, ?_, ?_⟩
      · simp only [if_neg hfull]
      · exact hp.remembers_record hnow
      · exact hp.length_record hlen hroom
      · simp [hn]

/-! ### Whole runs -/

theorem Remembers.isLive_iff_host (h : Remembers clock admitted table) (hle : clock ≤ now)
    {e : String × List ℚ} (he : e ∈ table) :
    isLive now e = decide (e.1 ∈ liveHosts now admitted) := by
  have hnow := h.later hle
  obtain ⟨old, htimes, hold⟩ := hnow.tracked e he
  rw [Bool.eq_iff_iff, isLive_iff, decide_eq_true_eq, liveHosts, List.mem_dedup, List.mem_map]
  constructor
  · rintro ⟨t, ht, hs⟩
    have hmem : (e.1, t) ∈ admitted := mem_timesOf.mp (htimes ▸ List.mem_append_right old ht)
    exact ⟨(e.1, t), List.mem_filter.mpr ⟨hmem, by simpa using hs⟩, rfl⟩
  · rintro ⟨⟨k, t⟩, ha, rfl⟩
    obtain ⟨ha, hs⟩ := List.mem_filter.mp ha
    have hmem := mem_timesOf.mpr ha
    rw [htimes] at hmem
    rcases List.mem_append.mp hmem with ht | ht
    · rw [hold t ht] at hs
      cases hs
    · exact ⟨t, ht, by simpa using hs⟩

/-- What the table and the count of a limiter have to do with the window. -/
structure Faithful (settings : AdmissionSettings) (w : Window ι) (attempts : Attempts)
    (inflight : ℤ) : Prop where
  capped : attempts.length ≤ settings.max_auth_clients
  evicts : ∀ now, w.clock ≤ now → evict now attempts =
    some (attempts.filter fun e => decide (e.1 ∈ liveHosts now w.admitted))
  inflight_eq : inflight = w.inside.length
  inside_le : w.inside.length ≤ settings.max_auth_inflight

/-- The relation that every event keeps. -/
structure Simulates (settings : AdmissionSettings) (w : Window ι) (attempts : Attempts)
    (inflight : ℤ) : Prop where
  remembers : Remembers w.clock w.admitted attempts
  capped : attempts.length ≤ settings.max_auth_clients
  inflight_eq : inflight = w.inside.length
  inside_le : w.inside.length ≤ settings.max_auth_inflight

theorem Simulates.faithful {w : Window ι} {attempts : Attempts} {inflight : ℤ}
    (h : Simulates settings w attempts inflight) : Faithful settings w attempts inflight where
  capped := h.capped
  evicts now hle := by
    rw [h.remembers.evict_eq]
    congr 1
    apply List.filter_congr
    intro e he
    exact h.remembers.isLive_iff_host hle he
  inflight_eq := h.inflight_eq
  inside_le := h.inside_le

theorem simulates_initial (settings : AdmissionSettings) (clock : ℚ) :
    Simulates settings (.initial clock : Window ι) [] 0 :=
  ⟨remembers_nil, Nat.zero_le _, rfl, Nat.zero_le _⟩

theorem Simulates.leaves [DecidableEq ι] {w w' : Window ι} {attempts : Attempts} {inflight : ℤ}
    {i : ι} (h : Simulates settings w attempts inflight) (hw : w.leaves i = some w') :
    Simulates settings w' attempts (inflight - 1) := by
  unfold Window.leaves at hw
  split at hw
  next hi =>
    obtain rfl := Option.some.inj hw
    have hpos := List.length_pos_of_mem hi
    have hlen := List.length_erase_of_mem hi
    have hle := h.inside_le
    have heq := h.inflight_eq
    refine ⟨h.remembers, h.capped, ?_, ?_⟩
    · dsimp only
      omega
    · dsimp only
      omega
  · cases hw

/-- The callers that an attempt leaves inside. -/
theorem inside_attempt {w : Window ι} (i : ι) (host : String) (now : ℚ) (allowed entered : Bool)
    (hroom : entered = true → w.inside.length < settings.max_auth_inflight)
    (hle : w.inside.length ≤ settings.max_auth_inflight) :
    (w.attempt i host now allowed entered).inside.length =
        (if entered then w.inside.length + 1 else w.inside.length) ∧
      (w.attempt i host now allowed entered).inside.length ≤ settings.max_auth_inflight := by
  cases entered with
  | true => exact ⟨rfl, hroom rfl⟩
  | false => exact ⟨rfl, hle⟩

theorem enters_some {β : Type} [DecidableEq ι] {answer : Window ι → Window ι × β} {i : ι}
    {w : Window ι} {r : Window ι × β} (h : Window.enters answer i now w = some r) :
    w.clock ≤ now ∧ answer w = r := by
  unfold Window.enters at h
  split at h
  next hc => exact ⟨hc.1, Option.some.inj h⟩
  · cases h

theorem authenticate_simulates (i : ι) (host : String) {w : Window ι} {s : WebSocketSecurity}
    (h : Simulates settings w s.attempts s.auth_inflight) (hle : w.clock ≤ now) :
    ∃ s', WebSocketSecurity.authenticate settings host now s =
        some (s', (w.authenticate settings i host now).2) ∧
      Simulates settings (w.authenticate settings i host now).1 s'.attempts s'.auth_inflight := by
  obtain ⟨table, hallow, hrem, hcap⟩ := allowAttempt_spec host h.remembers hle h.capped
  have heq := h.inflight_eq
  have hroom : (allows settings host now w.admitted &&
      decide (w.inside.length < settings.max_auth_inflight)) = true →
      w.inside.length < settings.max_auth_inflight := fun he =>
    of_decide_eq_true (Bool.and_eq_true _ _ ▸ he).2
  have hinside := inside_attempt i host now (allows settings host now w.admitted) _ hroom h.inside_le
  rw [WebSocketSecurity.authenticate, hallow, Option.map_some]
  by_cases hno : allows settings host now w.admitted = false ∨
      (settings.max_auth_inflight : ℤ) ≤ s.auth_inflight
  · have hentered : (allows settings host now w.admitted &&
        decide (w.inside.length < settings.max_auth_inflight)) = false := by
      rw [Bool.and_eq_false_iff, decide_eq_false_iff_not]
      exact hno.imp id fun hfull => by omega
    rw [hentered] at hinside
    refine ⟨⟨table, s.auth_inflight⟩, ?_, ?_, hcap, ?_, ?_⟩
    · simp only [if_pos hno, Window.authenticate, hentered]
    · exact hrem
    · rw [Window.authenticate, hentered, hinside.1]
      exact heq
    · rw [Window.authenticate, hentered]
      exact hinside.2
  · obtain ⟨hallowed, hroom⟩ := not_or.mp hno
    have hentered : (allows settings host now w.admitted &&
        decide (w.inside.length < settings.max_auth_inflight)) = true := by
      rw [Bool.and_eq_true, decide_eq_true_eq]
      exact ⟨Bool.not_eq_false _ ▸ hallowed, by omega⟩
    rw [hentered] at hinside
    refine ⟨⟨table, s.auth_inflight + 1⟩, ?_, ?_, hcap, ?_, ?_⟩
    · simp only [if_neg hno, Window.authenticate, hentered]
    · exact hrem
    · rw [Window.authenticate, hentered, hinside.1, if_pos rfl, heq]
      rfl
    · rw [Window.authenticate, hentered]
      exact hinside.2

theorem admit_simulates (i : ι) (host : String) {w : Window ι} {s : PairingAdmission}
    (h : Simulates settings w s.attempts s.inflight) (hle : w.clock ≤ now) :
    ∃ s', PairingAdmission.admitHost settings host now s =
        some (s', (w.admitHost settings i host now).2) ∧
      Simulates settings (w.admitHost settings i host now).1 s'.attempts s'.inflight := by
  obtain ⟨s', hadmit, hrem, hcap, hinflight⟩ := admit_spec host h.remembers hle h.capped
    h.inflight_eq
  have hroom : (allows settings host now w.admitted &&
      decide (w.inside.length < settings.max_auth_inflight)) = true →
      w.inside.length < settings.max_auth_inflight := fun he =>
    of_decide_eq_true (Bool.and_eq_true _ _ ▸ he).2
  have hinside := inside_attempt i host now (allows settings host now w.admitted &&
    decide (w.inside.length < settings.max_auth_inflight)) _ hroom h.inside_le
  refine ⟨s', hadmit, hrem, hcap, ?_, hinside.2⟩
  rw [hinflight, Window.admitHost, hinside.1]

/-- Driven through the same events, a limiter gives the answers of its window. -/
theorem drive_simulation {σ β : Type} [DecidableEq ι] (attempts : σ → Attempts) (inflight : σ → ℤ)
    (answer : ι → String → ℚ → Window ι → Window ι × β)
    (enter : ι → String → ℚ → σ → Option (σ × β)) (leave : ι → σ → Option σ)
    (henter : ∀ i host now (w : Window ι) s, Simulates settings w (attempts s) (inflight s) →
      w.clock ≤ now → ∃ s', enter i host now s = some (s', (answer i host now w).2) ∧
        Simulates settings (answer i host now w).1 (attempts s') (inflight s'))
    (hleave : ∀ i s, ∃ s', leave i s = some s' ∧ attempts s' = attempts s ∧
      inflight s' = inflight s - 1)
    {s : σ} {start : Window ι} (hstart : Simulates settings start (attempts s) (inflight s))
    {events : List (Event ι)} {w : Window ι} {answers : List β}
    (hrun : Machine.run (drive (fun i host now => Window.enters (answer i host now) i now)
      Window.leaves) (start, []) events = some (w, answers)) :
    ∃ s', Machine.run (drive enter leave) (s, []) events = some (s', answers) ∧
      Simulates settings w (attempts s') (inflight s') := by
  have hsim : ∃ q, Machine.run (drive enter leave) (s, []) events = some q ∧
      Simulates settings w (attempts q.1) (inflight q.1) ∧ answers = q.2 := by
    refine Machine.run_simulation (R := fun (p : Window ι × List β) (q : σ × List β) =>
      Simulates settings p.1 (attempts q.1) (inflight q.1) ∧ p.2 = q.2) ?_ ⟨hstart, rfl⟩ hrun
    rintro ⟨w, answers⟩ ⟨s, answers'⟩ event ⟨w', next⟩ ⟨hR, hanswers⟩ hstep
    dsimp only at hR hanswers
    subst hanswers
    cases event with
    | enter i host now =>
        obtain ⟨⟨w₁, b⟩, hw₁, heq⟩ := Option.map_eq_some_iff.mp hstep
        obtain ⟨hle, hanswer⟩ := enters_some hw₁
        obtain ⟨rfl, rfl⟩ := Prod.mk.inj heq
        obtain ⟨s', hs', hR'⟩ := henter i host now w s hR hle
        rw [hanswer] at hs' hR'
        exact ⟨(s', answers ++ [b]), by simp only [drive, hs', Option.map_some], hR', rfl⟩
    | leave i =>
        obtain ⟨w₁, hw₁, heq⟩ := Option.map_eq_some_iff.mp hstep
        obtain ⟨rfl, rfl⟩ := Prod.mk.inj heq
        obtain ⟨s', hs', hattempts, hinflight⟩ := hleave i s
        refine ⟨(s', answers), by simp only [drive, hs', Option.map_some], ?_, rfl⟩
        rw [hattempts, hinflight]
        exact hR.leaves hw₁
  obtain ⟨⟨s', answers'⟩, hs', hR, hanswers⟩ := hsim
  dsimp only at hR hanswers
  exact ⟨s', hanswers ▸ hs', hR⟩

/-- Through any events with a clock that does not go back, both limiters give the answers of
the naive window, and no call indexes an empty deque. -/
theorem limiters_are_windows [DecidableEq ι] (settings : AdmissionSettings) (clock : ℚ)
    (events : List (Event ι)) (w : Window ι) :
    (∀ answers, Machine.run (Window.socketStep settings) (.initial clock, []) events =
        some (w, answers) →
      ∃ s, Machine.run (WebSocketSecurity.step settings) (⟨[], 0⟩, []) events = some (s, answers) ∧
        Faithful settings w s.attempts s.auth_inflight) ∧
    (∀ answers, Machine.run (Window.pairingStep settings) (.initial clock, []) events =
        some (w, answers) →
      ∃ s, Machine.run (PairingAdmission.step settings) (⟨[], 0⟩, []) events = some (s, answers) ∧
        Faithful settings w s.attempts s.inflight) := by
  constructor
  · intro answers hrun
    obtain ⟨s, hs, hR⟩ := drive_simulation WebSocketSecurity.attempts
      WebSocketSecurity.auth_inflight (Window.authenticate settings)
      (fun _ host now => WebSocketSecurity.authenticate settings host now)
      (fun _ s => some { s with auth_inflight := s.auth_inflight - 1 }) (s := ⟨[], 0⟩)
      (fun i host now w s hR hle => authenticate_simulates i host hR hle)
      (fun _ s => ⟨{ s with auth_inflight := s.auth_inflight - 1 }, rfl, rfl, rfl⟩)
      (simulates_initial settings clock) hrun
    exact ⟨s, hs, hR.faithful⟩
  · intro answers hrun
    obtain ⟨s, hs, hR⟩ := drive_simulation PairingAdmission.attempts PairingAdmission.inflight
      (Window.admitHost settings) (fun _ host now => PairingAdmission.admitHost settings host now)
      (fun _ s => some { s with inflight := s.inflight - 1 }) (s := ⟨[], 0⟩)
      (fun i host now w s hR hle => admit_simulates i host hR hle)
      (fun _ s => ⟨{ s with inflight := s.inflight - 1 }, rfl, rfl, rfl⟩)
      (simulates_initial settings clock) hrun
    exact ⟨s, hs, hR.faithful⟩

/-- One attempt a minute and one host: the second attempt of the host is refused, another
host is refused while the first has an attempt, and is admitted a minute later. -/
theorem limiters_are_windows_twoHosts :
    (∃ s, Machine.run (WebSocketSecurity.step ⟨1, 1, 1, le_rfl, le_rfl, le_rfl⟩) (⟨[], 0⟩, [])
        [.enter 0 "a" 0, .enter 1 "a" 30, .enter 1 "b" 59, .enter 1 "b" 60, .leave 0,
          .enter 1 "b" (241 / 2)] =
          some (s, [(true, true), (false, false), (false, false), (true, false), (true, true)]) ∧
        Faithful (ι := ℕ) ⟨1, 1, 1, le_rfl, le_rfl, le_rfl⟩
          ⟨[("a", 0), ("b", 60), ("b", 241 / 2)], [1], 241 / 2⟩ s.attempts s.auth_inflight) ∧
      ∃ s, Machine.run (PairingAdmission.step ⟨1, 1, 1, le_rfl, le_rfl, le_rfl⟩) (⟨[], 0⟩, [])
        [.enter 0 "a" 0, .enter 1 "a" 30, .enter 1 "b" 60, .leave 0, .enter 1 "b" (241 / 2)] =
          some (s, [true, false, false, true]) ∧
        Faithful (ι := ℕ) ⟨1, 1, 1, le_rfl, le_rfl, le_rfl⟩
          ⟨[("a", 0), ("b", 241 / 2)], [1], 241 / 2⟩ s.attempts s.inflight :=
  ⟨(limiters_are_windows _ 0 _ _).1 _ (by decide +kernel),
    (limiters_are_windows _ 0 _ _).2 _ (by decide +kernel)⟩

end Ally.Admission
