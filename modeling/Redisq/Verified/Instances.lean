import Redisq.Library.Horizon
import Redisq.Model.Instances

/-!
# The instance registry is a map with a horizon

The hash and the sorted set hold the same IDs all along, and the set has every
report time of the last five minutes: a prune and an expiry take nothing
younger (`Registered`).  So `Instances` lists the last reports of a map that
forgets after five minutes, except that the test for Lost may overflow
(`instances_list_reports_iff`).
-/

namespace Redisq.Model

open Horizon (Table Keeps Lists shown)

variable {ρ : Type} {json : RecordJson ρ} {m : Table Bytes (InstanceRecord ρ) ℤ}
  {recs : Hash Bytes} {z : ZSet} {s : InstanceKeys} {id : Bytes} {r : InstanceRecord ρ}
  {cut last t : ℤ} {now : Clock}

/-! ## Keys -/

namespace Expiring

variable {α : Type} [EmptyCollection α] {k : Expiring α}

theorem value_evicted_of_le {now : ℤ} (h : ∀ e, k.expiry = some e → now ≤ e) :
    k.evicted now = k := by
  rw [evicted, if_neg]
  intro hgone
  cases hexpiry : k.expiry with
  | none =>
      rw [hexpiry] at hgone
      cases hgone
  | some e =>
      rw [hexpiry] at hgone
      have hlt : e < now := of_decide_eq_true hgone
      have hle := h e hexpiry
      omega

theorem evicted_of_lt {now e : ℤ} (h : k.expiry = some e) (hlt : e < now) :
    k.evicted now = missing := by
  rw [evicted, h, if_pos]
  exact decide_eq_true hlt

end Expiring

theorem clock_ms (now : Clock) : now.ms = (now.micros / 1000 : ℕ) := by
  rw [Clock.ms]
  congr 1
  omega

theorem clock_ms_lt (now : Clock) : now.ms < 2 ^ 53 := by
  have hexact := now.exact
  rw [clock_ms]
  omega

theorem clock_ms_mono {now now' : Clock} (h : now.micros ≤ now'.micros) : now.ms ≤ now'.ms := by
  rw [clock_ms, clock_ms]
  omega

/-! ## What the keys hold -/

/-- The set has the report times from `cut` on, and the hash the records of
the set's IDs. -/
structure Holds (json : RecordJson ρ) (cut : ℤ) (m : Table Bytes (InstanceRecord ρ) ℤ)
    (recs : Hash Bytes) (z : ZSet) : Prop where
  keeps : Keeps cut m z
  body : ∀ id r t, z.score id = some t → m id = some (r, t) →
    recs.lookup id = some (json.marshal r.stored)
  bare : ∀ id, z.score id = none → recs.lookup id = none

theorem score_eq_none_of_empty (z : ZSet) : z = ∅ ↔ ∀ id, z.score id = none := by
  constructor
  · rintro rfl id
    exact SortedSet.score_empty id
  · intro h
    refine SortedSet.ext (List.eq_nil_iff_forall_not_mem.mpr fun e he => ?_)
    have hscore : z.score (SortedSet.member e) = some (SortedSet.rank e) :=
      SortedSet.score_eq_some_iff.mpr he
    rw [h] at hscore
    cases hscore

namespace Holds

/-- The keys come and go together. -/
theorem empty_iff (h : Holds json cut m recs z) : recs = ∅ ↔ z = ∅ := by
  rw [score_eq_none_of_empty]
  constructor
  · rintro rfl id
    cases hscore : z.score id with
    | none => rfl
    | some t =>
        obtain ⟨r, hr⟩ := h.keeps.sound id t hscore
        have hbody := h.body id r t hscore hr
        rw [Finmap.lookup_empty] at hbody
        cases hbody
  · intro hscore
    refine Finmap.ext_lookup fun id => ?_
    rw [h.bare id (hscore id), Finmap.lookup_empty]

theorem later {cut' : ℤ} (h : Holds json cut m recs z) (hcut : cut ≤ cut') :
    Holds json cut' m recs z :=
  ⟨h.keeps.later hcut, h.body, h.bare⟩

theorem lost (h : ∀ id r t, m id = some (r, t) → t < cut) : Holds json cut m ∅ ∅ := by
  refine ⟨Horizon.keeps_of_old h, ?_, fun id _ => Finmap.lookup_empty id⟩
  intro id r t hscore
  rw [SortedSet.score_empty] at hscore
  cases hscore

theorem report (h : Holds json cut m recs z) (id : Bytes) (r : InstanceRecord ρ) (t : ℤ) :
    Holds json cut (m.report id r t) (recs.insert id (json.marshal r.stored)) (z.insert id t) := by
  refine ⟨h.keeps.report id r t, ?_, ?_⟩
  · intro id' r' t' hscore hm
    by_cases hid : id' = id
    · subst hid
      rw [m.report_self, Option.some.injEq, Prod.mk.injEq] at hm
      rw [Finmap.lookup_insert, hm.1]
    · rw [SortedSet.score_insert_of_ne z t hid] at hscore
      rw [m.report_of_ne r t hid] at hm
      rw [Finmap.lookup_insert_of_ne _ hid]
      exact h.body id' r' t' hscore hm
  · intro id' hscore
    have hid : id' ≠ id := by
      rintro rfl
      rw [SortedSet.score_insert_self] at hscore
      cases hscore
    rw [SortedSet.score_insert_of_ne z t hid] at hscore
    rw [Finmap.lookup_insert_of_ne _ hid, h.bare id' hscore]

/-- Taken out of both keys, an ID leaves the others as they are. -/
theorem erase (h : Holds json cut m recs z) {m' : Table Bytes (InstanceRecord ρ) ℤ}
    (hkeeps : Keeps cut m' (z.erase id)) (hothers : ∀ id' ≠ id, m' id' = m id') :
    Holds json cut m' (recs.erase id) (z.erase id) := by
  refine ⟨hkeeps, ?_, ?_⟩
  · intro id' r t hscore hm
    have hid : id' ≠ id := by
      rintro rfl
      rw [SortedSet.score_erase_self] at hscore
      cases hscore
    rw [SortedSet.score_erase_of_ne z hid] at hscore
    rw [hothers id' hid] at hm
    rw [Finmap.lookup_erase_ne hid]
    exact h.body id' r t hscore hm
  · intro id' hscore
    by_cases hid : id' = id
    · subst hid
      exact Finmap.lookup_erase _ _
    · rw [SortedSet.score_erase_of_ne z hid] at hscore
      rw [Finmap.lookup_erase_ne hid, h.bare id' hscore]

theorem remove (h : Holds json cut m recs z) (id : Bytes) :
    Holds json cut (m.remove id) (recs.erase id) (z.erase id) :=
  h.erase (h.keeps.remove id) fun _ hid => m.remove_of_ne hid

/-- A prune takes out stale IDs, as many as it likes. -/
theorem prune {stale : List Bytes} :
    ∀ {recs : Hash Bytes} {z : ZSet}, Holds json cut m recs z →
      (∀ id ∈ stale, ∀ t, z.score id = some t → t < cut) →
      Holds json cut m (stale.foldl (fun h id => h.erase id) recs)
        (stale.foldl SortedSet.erase z) := by
  induction stale with
  | nil => exact fun h _ => h
  | cons id rest ih =>
      intro recs z h hstale
      have hone : Keeps cut m ([id].foldl SortedSet.erase z) := by
        refine h.keeps.prune fun id' hid' => ?_
        rw [List.mem_singleton.mp hid']
        exact hstale id List.mem_cons_self
      refine ih (h.erase hone fun _ _ => rfl) fun id' hid' t hscore => ?_
      rw [SortedSet.score_erase] at hscore
      split at hscore
      · cases hscore
      · exact hstale id' (List.mem_cons_of_mem id hid') t hscore

end Holds

/-! ## What the scripts do -/

/-- The keys after a report that finds `stale`. -/
theorem exec_prunes (stale : List Bytes) (s : InstanceKeys) :
    ∃ t : InstanceKeys,
      (Script.each stale fun id => do
        writeRecords .hdel fun h => h.erase id
        writeBeats .zrem fun z => z.erase id : Registry Unit).exec s = ((), t) ∧
      t.records.value = stale.foldl (fun h id => h.erase id) s.records.value ∧
      t.beats.value = stale.foldl SortedSet.erase s.beats.value := by
  induction stale generalizing s with
  | nil => exact ⟨s, rfl, rfl, rfl⟩
  | cons id rest ih =>
      obtain ⟨t, hexec, hrecords, hbeats⟩ := ih
        ⟨s.records.write fun h => h.erase id, s.beats.write fun z => z.erase id⟩
      exact ⟨t, hexec, hrecords, hbeats⟩

/-- The IDs a report at `now` prunes. -/
def staleIDs (now : Clock) (z : ZSet) : List Bytes :=
  (z.filter fun e => decide (SortedSet.rank e < now.ms - pruneAfterMS)).members.take 100

theorem score_of_stale (h : id ∈ staleIDs now z) (hscore : z.score id = some t) :
    t < now.ms - pruneAfterMS := by
  obtain ⟨t', ht'⟩ := SortedSet.mem_members_iff.mp (List.mem_of_mem_take h)
  obtain ⟨hscore', hlt⟩ := SortedSet.score_filter.mp ht'
  obtain rfl : t = t' := Option.some.inj (hscore.symm.trans hscore')
  exact of_decide_eq_true hlt

/-- Both keys hold something, and expire five minutes from now. -/
theorem exec_reportInstanceScript (now : Clock) (id body : Bytes) (s : InstanceKeys) :
    ∃ t : InstanceKeys, (reportInstanceScript now id body).exec s = ((), t) ∧
      t.records.value = (staleIDs now (s.beats.value.insert id now.ms)).foldl
        (fun h id => h.erase id) (s.records.value.insert id body) ∧
      t.beats.value = (staleIDs now (s.beats.value.insert id now.ms)).foldl
        SortedSet.erase (s.beats.value.insert id now.ms) ∧
      t.records.expiry = (if t.records.value = ∅ then none else some (now.ms + pruneAfterMS)) ∧
      t.beats.expiry = if t.beats.value = ∅ then none else some (now.ms + pruneAfterMS) := by
  obtain ⟨t, hexec, hrecords, hbeats⟩ :=
    exec_prunes (staleIDs now (s.beats.value.insert id now.ms))
      ⟨s.records.write fun h => h.insert id body, s.beats.write fun z => z.insert id now.ms⟩
  refine ⟨⟨t.records.pexpire now.ms 300000, t.beats.pexpire now.ms 300000⟩, ?_, hrecords, hbeats,
    rfl, rfl⟩
  have hstale : (beatsBelow (now.ms - 300000) 100).exec
      ⟨s.records.write fun h => h.insert id body, s.beats.write fun z => z.insert id now.ms⟩ =
        (staleIDs now (s.beats.value.insert id now.ms),
          ⟨s.records.write fun h => h.insert id body, s.beats.write fun z => z.insert id now.ms⟩) :=
    rfl
  rw [reportInstanceScript, Script.exec_bind, writeRecords, Script.exec_command,
    Script.exec_bind, writeBeats, Script.exec_command, Script.exec_bind, hstale,
    Script.exec_bind, hexec]
  rfl

/-! ## Every call keeps the map -/

/-- What a call reports or removes. -/
def RegistryCall.apply (now : Clock) (m : Table Bytes (InstanceRecord ρ) ℤ) :
    RegistryCall ρ → Table Bytes (InstanceRecord ρ) ℤ
  | .report r => if r.id = [] then m else m.report r.id r now.ms
  | .remove id => m.remove id

/-- The last reports before call number `n` of a run. -/
def reportsAt (u : ℕ → Clock × RegistryCall ρ) : ℕ → Table Bytes (InstanceRecord ρ) ℤ :=
  Trajectory.state (fun m e => e.2.apply e.1 m) (fun _ => none) u

/-- The keys stand for the map as it is at `last`: they expire together, and
not before every report is old. -/
structure Registered (json : RecordJson ρ) (last : ℤ) (m : Table Bytes (InstanceRecord ρ) ℤ)
    (s : InstanceKeys) : Prop where
  holds : Holds json (last - pruneAfterMS) m s.records.value s.beats.value
  together : s.records.expiry = s.beats.expiry
  late : s.beats.value = ∅ ∨
    ∃ e, s.beats.expiry = some e ∧ ∀ id r t, m id = some (r, t) → t + pruneAfterMS ≤ e
  past : ∀ id r t, m id = some (r, t) → 0 ≤ t ∧ t ≤ last

theorem registered_empty (json : RecordJson ρ) (now : Clock) :
    Registered json now.ms (fun _ => none) (InstanceKeys.empty.evicted now) where
  holds := .lost fun id r t h => by cases h
  together := rfl
  late := Or.inl rfl
  past id r t h := by cases h

namespace Registered

/-- Time passes, and may take both keys. -/
theorem evicted (h : Registered json last m s) (hle : last ≤ now.ms) :
    Registered json now.ms m (s.evicted now) := by
  have hpast : ∀ id r t, m id = some (r, t) → 0 ≤ t ∧ t ≤ now.ms := fun id r t hm =>
    ⟨(h.past id r t hm).1, (h.past id r t hm).2.trans hle⟩
  have hlater : Holds json (now.ms - pruneAfterMS) m s.records.value s.beats.value :=
    h.holds.later (by omega)
  have hstays : (∀ e, s.beats.expiry = some e → now.ms ≤ e) → s.evicted now = s := by
    intro hlive
    rw [InstanceKeys.evicted, Expiring.value_evicted_of_le hlive,
      Expiring.value_evicted_of_le (h.together ▸ hlive)]
  rcases h.late with hempty | ⟨e, he, hlate⟩
  · rw [hstays fun e he => by rw [s.beats.absent hempty] at he; cases he]
    exact ⟨hlater, h.together, Or.inl hempty, hpast⟩
  · by_cases hgone : e < now.ms
    · have hmissing : s.evicted now = .empty := by
        rw [InstanceKeys.evicted, Expiring.evicted_of_lt he hgone,
          Expiring.evicted_of_lt (h.together.trans he) hgone, InstanceKeys.empty]
      rw [hmissing]
      refine ⟨.lost fun id r t hm => ?_, rfl, Or.inl rfl, hpast⟩
      have hold := hlate id r t hm
      omega
    · rw [hstays fun e' he' => by
        obtain rfl : e = e' := Option.some.inj (he.symm.trans he')
        omega]
      exact ⟨hlater, h.together, Or.inr ⟨e, he, hlate⟩, hpast⟩

theorem report (h : Registered json now.ms m s) (r : InstanceRecord ρ) :
    Registered json now.ms (m.report r.id r now.ms)
      ((reportInstanceScript now r.id (json.marshal r.stored)).exec s).2 := by
  obtain ⟨t, hexec, hrecords, hbeats, hrecordsExpiry, hbeatsExpiry⟩ :=
    exec_reportInstanceScript now r.id (json.marshal r.stored) s
  rw [hexec]
  have hholds : Holds json (now.ms - pruneAfterMS) (m.report r.id r now.ms) t.records.value
      t.beats.value := by
    rw [hrecords, hbeats]
    exact (h.holds.report r.id r now.ms).prune fun id hid d hscore => score_of_stale hid hscore
  have hpast : ∀ id r' d, m.report r.id r now.ms id = some (r', d) → 0 ≤ d ∧ d ≤ now.ms := by
    intro id r' d hm
    by_cases hid : id = r.id
    · subst hid
      rw [m.report_self, Option.some.injEq, Prod.mk.injEq] at hm
      rw [← hm.2]
      refine ⟨?_, le_rfl⟩
      rw [clock_ms]
      omega
    · rw [m.report_of_ne r now.ms hid] at hm
      exact h.past id r' d hm
  refine ⟨hholds, ?_, ?_, hpast⟩
  · show t.records.expiry = t.beats.expiry
    rw [hrecordsExpiry, hbeatsExpiry]
    simp only [hholds.empty_iff]
  · by_cases hempty : t.beats.value = ∅
    · exact Or.inl hempty
    · refine Or.inr ⟨now.ms + pruneAfterMS, ?_, fun id r' d hm => ?_⟩
      · show t.beats.expiry = _
        rw [hbeatsExpiry, if_neg hempty]
      · have hd := (hpast id r' d hm).2
        omega

theorem remove (h : Registered json last m s) (id : Bytes) :
    Registered json last (m.remove id) ((removeInstance id).exec s).2 := by
  have hholds := h.holds.remove id
  have hpast : ∀ id' r t, m.remove id id' = some (r, t) → m id' = some (r, t) := by
    intro id' r t hm
    by_cases hid : id' = id
    · subst hid
      rw [m.remove_self] at hm
      cases hm
    · rwa [m.remove_of_ne hid] at hm
  refine ⟨hholds, ?_, ?_, fun id' r t hm => h.past id' r t (hpast id' r t hm)⟩
  · show (if s.records.value = ∅ ∨ s.records.value.erase id = ∅ then none
        else s.records.expiry) =
      if s.beats.value = ∅ ∨ s.beats.value.erase id = ∅ then none else s.beats.expiry
    simp only [h.holds.empty_iff, hholds.empty_iff, h.together]
  · by_cases hempty : s.beats.value.erase id = ∅
    · exact Or.inl hempty
    · have hbefore : s.beats.value ≠ ∅ := by
        intro hz
        refine hempty ?_
        rw [hz]
        rfl
      obtain ⟨e, he, hlate⟩ := h.late.resolve_left hbefore
      refine Or.inr ⟨e, ?_, fun id' r t hm => hlate id' r t (hpast id' r t hm)⟩
      show (if s.beats.value = ∅ ∨ s.beats.value.erase id = ∅ then none else s.beats.expiry) = _
      rw [if_neg (not_or.mpr ⟨hbefore, hempty⟩), he]

/-- One call. -/
theorem step (h : Registered json now.ms m s) (call : RegistryCall ρ) :
    Registered json now.ms (call.apply now m) ((call.run json now).exec s).2 := by
  cases call with
  | remove id => exact h.remove id
  | report r =>
      rw [RegistryCall.apply, RegistryCall.run, reportInstance, Script.exec_ite]
      by_cases hid : r.id = []
      · rw [if_pos hid, if_pos hid]
        exact h
      · rw [if_neg hid, if_neg hid, Script.exec_bind]
        exact h.report r

end Registered

/-- Any run. -/
theorem registered_run (json : RecordJson ρ) (u : ℕ → Clock × RegistryCall ρ)
    (hclock : Monotone fun n => (u n).1.micros) (n : ℕ) :
    ∀ now : Clock, (∀ i < n, (u i).1.micros ≤ now.micros) →
      Registered json now.ms (reportsAt u n) ((instanceKeysAt json u n).evicted now) := by
  induction n with
  | zero => exact fun now _ => registered_empty json now
  | succ n ih =>
      intro now hnow
      have hbefore := ih (u n).1 fun i hi => hclock hi.le
      exact (hbefore.step (u n).2).evicted (clock_ms_mono (hnow n n.lt_succ_self))

/-- What the map holds was reported. -/
theorem reportsAt_reported (u : ℕ → Clock × RegistryCall ρ) {n : ℕ}
    (h : reportsAt u n id = some (r, t)) :
    ∃ i < n, ∃ c : Clock, u i = (c, .report r) ∧ r.id = id ∧ t = c.ms := by
  induction n with
  | zero => cases h
  | succ n ih =>
      have hstep : reportsAt u (n + 1) = (u n).2.apply (u n).1 (reportsAt u n) := rfl
      have hearlier : reportsAt u n id = some (r, t) →
          ∃ i < n + 1, ∃ c : Clock, u i = (c, .report r) ∧ r.id = id ∧ t = c.ms := by
        intro hold
        obtain ⟨i, hi, hreported⟩ := ih hold
        exact ⟨i, hi.trans n.lt_succ_self, hreported⟩
      rw [hstep] at h
      cases hcall : u n with
      | mk c call =>
          rw [hcall] at h
          cases call with
          | remove id' =>
              by_cases hid : id = id'
              · subst hid
                rw [RegistryCall.apply, Table.remove_self] at h
                cases h
              · rw [RegistryCall.apply, Table.remove_of_ne _ hid] at h
                exact hearlier h
          | report r' =>
              simp only [RegistryCall.apply] at h
              split at h
              · exact hearlier h
              · by_cases hid : id = r'.id
                · subst hid
                  rw [Table.report_self, Option.some.injEq, Prod.mk.injEq] at h
                  obtain ⟨rfl, rfl⟩ := h
                  exact ⟨n, n.lt_succ_self, c, hcall, rfl, rfl⟩
                · rw [Table.report_of_ne _ _ _ hid] at h
                  exact hearlier h

/-! ## Lost -/

/-- More than three intervals old. -/
def InstanceRecord.old (now t : ℤ) (r : InstanceRecord ρ) : Bool :=
  decide (3 * r.intervalMS.toInt < now - t)

/-- What `Instances` sets `Lost` to. -/
def InstanceRecord.lostAt (now t : ℤ) (r : InstanceRecord ρ) : Bool :=
  decide (Int64.ofInt t < Int64.ofInt now - 3 * r.intervalMS)

/-- Three intervals of `i` overflow, and the report time is on the wrong side
of what is left of `now - 3 * i`. -/
def Misjudged (now t i : ℤ) : Prop :=
  (now + 2 ^ 63 < 3 * i ∧ 3 * i < now - t + 2 ^ 64) ∨
    (now - t - 2 ^ 64 ≤ 3 * i ∧ 3 * i ≤ now - 2 ^ 63) ∨ 3 * i ≤ now - 2 ^ 63 - 2 ^ 64

theorem toInt_ofInt_of_time (h0 : 0 ≤ t) (ht : t < 2 ^ 53) : (Int64.ofInt t).toInt = t :=
  Int64.toInt_ofInt_of_le (by omega) (by omega)

theorem lostAt_eq_old_iff {nowMS : ℤ} (h0 : 0 ≤ t) (ht : t ≤ nowMS) (hnow : nowMS < 2 ^ 53) :
    r.lostAt nowMS t = r.old nowMS t ↔ ¬Misjudged nowMS t r.intervalMS.toInt := by
  have hlow := r.intervalMS.le_toInt
  have hhigh := r.intervalMS.toInt_lt
  have hthree : (3 : Int64).toInt = 3 := rfl
  rw [InstanceRecord.lostAt, InstanceRecord.old, decide_eq_decide, Int64.lt_iff_toInt_lt,
    Int64.toInt_sub, Int64.toInt_mul, hthree, toInt_ofInt_of_time h0 (by omega),
    toInt_ofInt_of_time (by omega) hnow, Int.sub_bmod_bmod]
  generalize r.intervalMS.toInt = i at *
  rw [Misjudged, Int.bmod_def]
  split <;> omega

/-! ## What `Instances` returns -/

/-- A record with its ID, report time and whether it is lost. -/
def InstanceRecord.stamped (id : Bytes) (t : ℤ) (lost : Bool) (r : InstanceRecord ρ) :
    InstanceRecord ρ :=
  { r with id := id, beatAt := Int64.ofInt t, lost := lost }

/-- `out` has exactly what was last reported in the last five minutes and not
removed since, each record once, by report time and ID, with its report time
and whether it is more than three intervals old. -/
structure ListsReports (now : ℤ) (m : Table Bytes (InstanceRecord ρ) ℤ)
    (out : List (InstanceRecord ρ)) : Prop where
  sorted : out.Pairwise fun x y => x.beatAt < y.beatAt ∨ x.beatAt = y.beatAt ∧ x.id < y.id
  mem : ∀ x, x ∈ out ↔ ∃ id r t, m id = some (r, t) ∧ now - t ≤ 300000 ∧
    x = r.stamped id t (r.old now t)

/-- The cut-off of the reader is that of the prune. -/
theorem due_iff {nowMS : ℤ} (h0 : 0 ≤ t) (ht : t ≤ nowMS) (hnow : nowMS < 2 ^ 53) :
    Int64.ofInt t < Int64.ofInt nowMS - Int64.ofInt pruneAfterMS ↔ ¬nowMS - pruneAfterMS ≤ t := by
  have hprune : (Int64.ofInt pruneAfterMS).toInt = 300000 := rfl
  rw [Int64.lt_iff_toInt_lt, Int64.toInt_sub, hprune, toInt_ofInt_of_time h0 (by omega),
    toInt_ofInt_of_time (by omega) hnow, pruneAfterMS, Int.bmod_def]
  split <;> omega

/-- The entries of `:beats` from the cut on, each with its record. -/
theorem listAt_eq (h : Registered json now.ms m (s.evicted now))
    (hjson : ∀ id r t, m id = some (r, t) →
      json.unmarshal (json.marshal r.stored) = some r.stored) :
    listAt json now s =
      (shown (now.ms - pruneAfterMS) m (s.evicted now).beats.value).map fun e =>
        e.2.1.stamped e.1 e.2.2 (e.2.1.lostAt now.ms e.2.2) := by
  have hlist : listAt json now s =
      ((s.evicted now).beats.value.entries.map fun e =>
        (SortedSet.member e, SortedSet.rank e)).filterMap
          (readInstance json (Int64.ofInt now.ms) (s.evicted now).records.value) := rfl
  rw [hlist, shown, List.filterMap_map, List.map_filterMap, List.filterMap_filter]
  refine List.filterMap_congr fun e he => ?_
  have hscore : (s.evicted now).beats.value.score (SortedSet.member e) =
      some (SortedSet.rank e) := SortedSet.score_eq_some_iff.mpr he
  obtain ⟨r, hr⟩ := h.holds.keeps.sound _ _ hscore
  obtain ⟨h0, hle⟩ := h.past _ _ _ hr
  have hbody := h.holds.body _ _ _ hscore hr
  have hdue := due_iff h0 hle (clock_ms_lt now)
  simp only [Function.comp_apply, readInstance, hbody, hr, hjson _ _ _ hr, Option.map_some,
    hdue, decide_eq_true_eq]
  by_cases hcut : now.ms - pruneAfterMS ≤ SortedSet.rank e
  · rw [if_neg (not_not.mpr hcut), if_pos hcut]
    rfl
  · rw [if_pos hcut, if_neg hcut]

theorem fresh_iff (now t : ℤ) : now - pruneAfterMS ≤ t ↔ now - t ≤ 300000 := by
  rw [pruneAfterMS]
  omega

/-- What is shown from the cut on lists the reports, if it says which are
old. -/
theorem listsReports_of_lists {out : List (Bytes × InstanceRecord ρ × ℤ)} {nowMS : ℤ}
    (h : Horizon.Lists (nowMS - pruneAfterMS) m out)
    (hbeat : ∀ e ∈ out, (Int64.ofInt e.2.2).toInt = e.2.2) :
    ListsReports nowMS m (out.map fun e => e.2.1.stamped e.1 e.2.2 (e.2.1.old nowMS e.2.2)) := by
  constructor
  · rw [List.pairwise_map]
    refine h.sorted.imp_of_mem fun {e e'} he he' hlt => ?_
    show Int64.ofInt e.2.2 < Int64.ofInt e'.2.2 ∨
      Int64.ofInt e.2.2 = Int64.ofInt e'.2.2 ∧ e.1 < e'.1
    rw [Int64.lt_iff_toInt_lt, ← Int64.toInt_inj, hbeat e he, hbeat e' he']
    exact hlt
  · intro x
    rw [List.mem_map]
    constructor
    · rintro ⟨e, he, rfl⟩
      obtain ⟨hm, hfresh⟩ := (h.mem e.1 e.2.1 e.2.2).mp he
      exact ⟨e.1, e.2.1, e.2.2, hm, (fresh_iff _ _).mp hfresh, rfl⟩
    · rintro ⟨id, r, t, hm, hfresh, rfl⟩
      exact ⟨(id, r, t), (h.mem id r t).mpr ⟨hm, (fresh_iff _ _).mpr hfresh⟩, rfl⟩

/-- **The instance registry is a map with a horizon of five minutes**, whatever
the run, exactly where the test for Lost does not overflow. -/
theorem instances_list_reports_iff (json : RecordJson ρ) (u : ℕ → Clock × RegistryCall ρ)
    (hclock : Monotone fun n => (u n).1.micros)
    (hjson : ∀ n c r, u n = (c, .report r) →
      json.unmarshal (json.marshal r.stored) = some r.stored)
    (n : ℕ) (now : Clock) (hnow : ∀ i < n, (u i).1.micros ≤ now.micros) :
    ListsReports now.ms (reportsAt u n) (listAt json now (instanceKeysAt json u n)) ↔
      ∀ id r t, reportsAt u n id = some (r, t) → now.ms - t ≤ 300000 →
        ¬Misjudged now.ms t r.intervalMS.toInt := by
  have hkeys := registered_run json u hclock n now hnow
  have hlists := hkeys.holds.keeps.lists
  have heq := listAt_eq hkeys fun id r t hm => by
    obtain ⟨i, _, c, hcall, _⟩ := reportsAt_reported u hm
    exact hjson i c r hcall
  have hjudge : ∀ id r t, reportsAt u n id = some (r, t) →
      (r.lostAt now.ms t = r.old now.ms t ↔ ¬Misjudged now.ms t r.intervalMS.toInt) := by
    intro id r t hm
    obtain ⟨h0, hle⟩ := hkeys.past id r t hm
    exact lostAt_eq_old_iff h0 hle (clock_ms_lt now)
  rw [heq]
  generalize shown (now.ms - pruneAfterMS) (reportsAt u n)
    ((instanceKeysAt json u n).evicted now).beats.value = out at hlists ⊢
  have hbeat : ∀ e ∈ out, (Int64.ofInt e.2.2).toInt = e.2.2 := by
    intro e he
    obtain ⟨hm, _⟩ := (hlists.mem e.1 e.2.1 e.2.2).mp he
    obtain ⟨h0, hle⟩ := hkeys.past _ _ _ hm
    have hlt := clock_ms_lt now
    exact toInt_ofInt_of_time h0 (by omega)
  constructor
  · intro hlisted id r t hm hfresh
    refine (hjudge id r t hm).mp ?_
    have hin : (id, r, t) ∈ out := (hlists.mem id r t).mpr ⟨hm, (fresh_iff _ _).mpr hfresh⟩
    obtain ⟨id', r', t', hm', _, hsame⟩ := (hlisted.mem _).mp (List.mem_map_of_mem hin)
    obtain rfl : id = id' := congrArg InstanceRecord.id hsame
    obtain ⟨rfl, rfl⟩ : r = r' ∧ t = t' := by
      simpa only [Option.some.injEq, Prod.mk.injEq] using hm.symm.trans hm'
    exact congrArg InstanceRecord.lost hsame
  · intro hright
    have hold : (out.map fun e => e.2.1.stamped e.1 e.2.2 (e.2.1.lostAt now.ms e.2.2)) =
        out.map fun e => e.2.1.stamped e.1 e.2.2 (e.2.1.old now.ms e.2.2) := by
      refine List.map_congr_left fun e he => ?_
      obtain ⟨hm, hfresh⟩ := (hlists.mem e.1 e.2.1 e.2.2).mp he
      rw [(hjudge _ _ _ hm).mpr (hright _ _ _ hm ((fresh_iff _ _).mp hfresh))]
    rw [hold]
    exact listsReports_of_lists hlists hbeat

/-- Midnight, 1 January 1970. -/
def epoch : Clock := ⟨0, by decide⟩

/-- A run that reports `r` and no more. -/
def oneReport (r : InstanceRecord Unit) : ℕ → Clock × RegistryCall Unit
  | 0 => (epoch, .report r)
  | _ + 1 => (epoch, .remove [])

/-- The JSON of one record. -/
def jsonOf (r : InstanceRecord Unit) (body : String) : RecordJson Unit where
  marshal _ := text body
  unmarshal raw := if raw = text body then some r.stored else none

/-- The clock in the first minute. -/
def atSecond (n : Fin 60) : Clock := ⟨n * 1000000, by omega⟩

/-- Two records that come every five seconds, and one that comes every second. -/
def reporterA : InstanceRecord Unit := ⟨text "a", 5000, 0, false, ()⟩
def reporterB : InstanceRecord Unit := ⟨text "b", 1000, 0, false, ()⟩
def reporterC : InstanceRecord Unit := ⟨text "c", 5000, 0, false, ()⟩

/-- The JSON of these. -/
def reporterJson : RecordJson Unit where
  marshal r :=
    if r = reporterA then text "\x7b\"id\":\"a\",\"interval_ms\":5000\x7d"
    else if r = reporterB then text "\x7b\"id\":\"b\",\"interval_ms\":1000\x7d"
    else text "\x7b\"id\":\"c\",\"interval_ms\":5000\x7d"
  unmarshal raw :=
    if raw = text "\x7b\"id\":\"a\",\"interval_ms\":5000\x7d" then some reporterA
    else if raw = text "\x7b\"id\":\"b\",\"interval_ms\":1000\x7d" then some reporterB
    else if raw = text "\x7b\"id\":\"c\",\"interval_ms\":5000\x7d" then some reporterC
    else none

/-- A run of three reports, of which the last is taken back. -/
def threeReports : ℕ → Clock × RegistryCall Unit
  | 0 => (epoch, .report reporterA)
  | 1 => (atSecond 2, .report reporterB)
  | 2 => (atSecond 3, .report reporterC)
  | _ + 3 => (atSecond 4, .remove (text "c"))

/-- At six seconds two are listed, of which one is lost. -/
theorem instances_list_three_reports :
    ListsReports 6000 (reportsAt threeReports 4)
        (listAt reporterJson (atSecond 6) (instanceKeysAt reporterJson threeReports 4)) ∧
      listAt reporterJson (atSecond 6) (instanceKeysAt reporterJson threeReports 4) =
        [reporterA.stamped (text "a") 0 false, reporterB.stamped (text "b") 2000 true] := by
  constructor
  · refine (instances_list_reports_iff reporterJson threeReports ?_ ?_ 4 (atSecond 6) ?_).mpr ?_
    · refine monotone_nat_of_le_succ fun n => ?_
      match n with
      | 0 | 1 | 2 => decide
      | n + 3 => exact le_rfl
    · intro n c r h
      match n, h with
      | 0, h | 1, h | 2, h => cases h; decide
    · intro i hi
      match i, hi with
      | 0, _ | 1, _ | 2, _ | 3, _ => decide
    · intro id r t hm _
      obtain ⟨i, hi, c, hcall, _, rfl⟩ := reportsAt_reported _ hm
      match i, hcall with
      | 0, hcall | 1, hcall | 2, hcall => cases hcall; unfold Misjudged; decide
  · decide +kernel

/-- A record that says it comes every 2^62 milliseconds. -/
def everyAge : InstanceRecord Unit := ⟨text "a", 4611686018427387904, 0, false, ()⟩

/-- It is lost at once. -/
theorem huge_interval_is_lost :
    listAt (jsonOf everyAge "\x7b\"id\":\"a\",\"interval_ms\":4611686018427387904\x7d") epoch
        (instanceKeysAt (jsonOf everyAge "\x7b\"id\":\"a\",\"interval_ms\":4611686018427387904\x7d")
          (oneReport everyAge) 1) = [everyAge.stamped (text "a") 0 true] ∧
      reportsAt (oneReport everyAge) 1 (text "a") = some (everyAge, epoch.ms) ∧
        everyAge.old epoch.ms epoch.ms = false := by
  refine ⟨?_, ?_, ?_⟩
  · decide
  · rfl
  · decide

end Redisq.Model
