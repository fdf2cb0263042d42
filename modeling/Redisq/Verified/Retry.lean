import Redisq.Verified.Exclusive
import Redisq.Verified.Interrupted
import Redisq.Verified.PopOrder

/-!
# A failed call's items come back

The reservation of a pop call that failed stays in the slot, or with a call
that tries again, until a call gets its reply under it (`World.Retains`): the
calls with too little room put it back, and a new one is made only for them.
So the first call with room for it that succeeds returns what was popped
under it (`failed_call_comes_back`): the failed call's entries, or those of a
later failed call that took the reservation over, or fresh ones.
-/

namespace Redisq.Model

/-! ## The entries of a reservation -/

/-- Of the entries under `ids`, those of `pairs` are pending and no other. -/
def Store.HoldsJust (s : Store) (ids : List Bytes) (pairs : List (Bytes × Bytes)) : Prop :=
  ∀ a ∈ ids, ∀ v, s.nacked.lookup a = some v ↔ (a, v) ∈ pairs

/-- What a run leaves on the queue is what it found there. -/
def KeepsQueue (k : Kind) (cj : Cjson) (u : ℕ → Option ScriptRun) (n : ℕ) (env : Env) : Prop :=
  (storeAt k cj u (n + 1)).list = ((storeAt k cj u n).evicted env).list ∧
    (storeAt k cj u (n + 1)).zset = ((storeAt k cj u n).evicted env).zset

theorem Store.HoldsJust.leading {s : Store} {ids items : List Bytes}
    (h : s.HoldsJust ids (ids.zip items)) (hnodup : ids.Nodup) :
    s.leading ids = ids.zip items := by
  induction ids generalizing items with
  | nil => rfl
  | cons id rest ih =>
      obtain ⟨hid, hrest⟩ := List.nodup_cons.mp hnodup
      cases items with
      | nil =>
          have hnone : s.nacked.lookup id = none :=
            Option.eq_none_iff_forall_ne_some.mpr fun v hv =>
              absurd ((h id List.mem_cons_self v).mp hv) List.not_mem_nil
          simp only [Store.leading, hnone, List.zip_nil_right]
      | cons v vs =>
          have hsome : s.nacked.lookup id = some v :=
            (h id List.mem_cons_self v).mpr List.mem_cons_self
          have hothers : s.HoldsJust rest (rest.zip vs) := by
            intro a ha w
            have hne : a ≠ id := fun heq => hid (heq ▸ ha)
            rw [h a (List.mem_cons_of_mem _ ha) w]
            simp [hne]
          simp only [Store.leading, hsome, List.zip_cons_cons, ih hothers hrest]

theorem Store.taken_eq {k : Kind} {s : Store} {ids : List Bytes} (h : s.taken k ids ≠ []) :
    s.holds ids = false ∧ s.taken k ids = ids.zip (s.head k ids) := by
  by_cases hfree : s.holds ids = true ∨ s.paused.isSome = true
  · rw [Store.taken, if_pos hfree] at h
    exact absurd rfl h
  · rw [Store.taken, if_neg hfree]
    rw [not_or, Bool.not_eq_true] at hfree
    exact ⟨hfree.1, rfl⟩

theorem Store.HoldsJust.holds {s : Store} {ids : List Bytes} {pairs : List (Bytes × Bytes)}
    (h : s.HoldsJust ids pairs) (hids : ∀ q ∈ pairs, q.1 ∈ ids) (hpairs : pairs ≠ []) :
    s.holds ids = true := by
  obtain ⟨q, hq⟩ := List.exists_mem_of_ne_nil _ hpairs
  by_contra hfree
  have hnone := Store.holds_eq_false.mp (Bool.not_eq_true _ ▸ hfree) q.1 (hids q hq)
  rw [(h q.1 (hids q hq) q.2).mpr hq] at hnone
  cases hnone

/-- A pop that takes nothing. -/
theorem PopCall.effect_queue {k : Kind} (env : Env) (p : PopCall) {s : Store}
    (h : s.taken k p.ids = []) :
    (p.effect k env s).2.list = s.list ∧ (p.effect k env s).2.zset = s.zset := by
  unfold PopCall.effect Store.pop
  by_cases hheld : s.holds p.ids = true
  · rw [if_pos hheld]
    exact ⟨rfl, rfl⟩
  · rw [if_neg hheld]
    by_cases hpaused : s.paused.isSome = true
    · rw [if_pos hpaused]
      exact ⟨rfl, rfl⟩
    · rw [Store.taken, if_neg (not_or.mpr ⟨hheld, hpaused⟩)] at h
      have hlength := congrArg List.length h
      have hle := s.length_head_le k p.ids
      rw [List.length_zip, min_eq_right hle] at hlength
      have hhead : s.head k p.ids = [] := List.length_eq_zero_iff.mp hlength
      rw [if_neg hpaused]
      simp only [Store.poppedFresh, hhead, if_true, Store.joined, and_self]

theorem score_raised_of_ne {dl : Time} {a id : Bytes} (hne : a ≠ id) (z : ZSet) :
    (raised dl z id).score a = z.score a := by
  unfold raised
  split
  · exact SortedSet.score_insert_of_ne _ _ hne
  · rfl

theorem score_raisedAll_of_notMem {dl : Time} {a : Bytes} {ps : List (Bytes × Bytes)}
    (h : ∀ q ∈ ps, q.1 ≠ a) (z : ZSet) :
    (ps.foldl (fun z q => raised dl z q.1) z).score a = z.score a := by
  induction ps generalizing z with
  | nil => rfl
  | cons q rest ih =>
      rw [List.foldl_cons, ih fun q' hq' => h q' (List.mem_cons_of_mem _ hq')]
      exact score_raised_of_ne (h q List.mem_cons_self).symm z

/-- A pop leaves the entries of other IDs as they are. -/
theorem PopCall.effect_unmoved (k : Kind) (env : Env) (p : PopCall) (s : Store) {a : Bytes}
    (h : a ∉ p.ids) : Unmoved a s (p.effect k env s).2 := by
  have htaken : ∀ q ∈ s.taken k p.ids, q.1 ≠ a := by
    rintro q hq rfl
    exact h (Store.mem_taken hq).1
  have hfirst : a ∉ (s.taken k p.ids).map Prod.fst := by
    intro hmem
    obtain ⟨q, hq, heq⟩ := List.mem_map.mp hmem
    exact htaken q hq heq
  have hzip : ∀ {β : Type} (l : List β), a ∉ (p.ids.zip l).map Prod.fst := by
    intro β l hmem
    obtain ⟨q, hq, rfl⟩ := List.mem_map.mp hmem
    exact h (List.of_mem_zip hq).1
  refine ⟨?_, ?_, ?_, ?_⟩
  · rw [p.effect_nacked, Finmap.lookup_insertAll_of_notMem hfirst]
  · rw [p.effect_timeouts]
    split
    · refine score_raisedAll_of_notMem ?_ _
      rintro q hq rfl
      exact h (Store.mem_leading hq).1
    · rw [score_timed, if_neg fun hmem => hfirst hmem.2]
  · unfold PopCall.effect Store.pop
    split
    · rfl
    · split
      · rfl
      · simp only [Store.poppedFresh, Store.joined]
        split
        · rfl
        · cases k with
          | fifo => rfl
          | prio => exact Finmap.lookup_insertAll_of_notMem (hzip _) _
  · unfold PopCall.effect Store.pop
    split
    · rfl
    · split
      · rfl
      · simp only [Store.poppedFresh, Store.joined]
        split
        · rfl
        · have hstarted : (s.beheaded k p.ids).started = s.started := by cases k <;> rfl
          rw [Store.pended, hstarted]
          refine Finmap.lookup_insertAll_of_notMem ?_ _
          rw [List.map_map]
          exact hzip _

section Entries

variable {k : Kind} {cj : Cjson} {u : ℕ → Option ScriptRun} {x y m : ℕ} {p p' : PopCall}
  {env env' : Env} {ids : List Bytes}

/-- A pop that takes nothing leaves the queue as it is. -/
theorem keepsQueue_of_taken (hrun : u x = some ⟨.pop p, env⟩)
    (h : ((storeAt k cj u x).evicted env).taken k p.ids = []) : KeepsQueue k cj u x env := by
  obtain ⟨_, _, _, _, heq⟩ := step_some k cj (storeAt k cj u x) ⟨.pop p, env⟩
  rw [KeepsQueue, storeAt_succ, hrun, heq]
  exact p.effect_queue env h

theorem unmoved_of_run (hrun : u x = some ⟨.pop p, env⟩) {a : Bytes} (h : a ∉ p.ids) :
    Unmoved a (storeAt k cj u x) (storeAt k cj u (x + 1)) := by
  obtain ⟨_, _, _, _, heq⟩ := step_some k cj (storeAt k cj u x) ⟨.pop p, env⟩
  obtain ⟨_, _, _, hevicted⟩ := (storeAt k cj u x).evicted_eq env
  have hunmoved := p.effect_unmoved k env ((storeAt k cj u x).evicted env) h
  rw [storeAt_succ, hrun, heq]
  rw [hevicted] at hunmoved
  rw [ScriptRun.after, Invocation.after, hevicted]
  exact hunmoved

/-- What a pop took is what is pending under its IDs from then on. -/
theorem holdsJust_taken (hrun : u x = some ⟨.pop p, env⟩)
    (htaken : ((storeAt k cj u x).evicted env).taken k p.ids ≠ []) :
    (storeAt k cj u (x + 1)).HoldsJust p.ids
      (((storeAt k cj u x).evicted env).taken k p.ids) := by
  intro a ha v
  obtain ⟨hfree, htakes⟩ := Store.taken_eq htaken
  have hnodup : ((((storeAt k cj u x).evicted env).taken k p.ids).map Prod.fst).Nodup := by
    rw [htakes]
    exact (ackIDs_nodup _ _ _).sublist (map_fst_zip_sublist _ _)
  rw [storeAt_nacked hrun, ScriptRun.after, Invocation.after, p.effect_nacked]
  constructor
  · intro h
    by_cases hmem : a ∈ (((storeAt k cj u x).evicted env).taken k p.ids).map Prod.fst
    · exact Finmap.mem_of_lookup_insertAll hmem _ h
    · rw [Finmap.lookup_insertAll_of_notMem hmem, Store.holds_eq_false.mp hfree a ha] at h
      cases h
  · intro h
    exact Finmap.lookup_insertAll_of_mem hnodup h _

/-- An entry that stays pending stays as it is. -/
theorem lookup_kept {a v : Bytes}
    (hprepare : ∀ i item vt env, u i ≠ some ⟨.prepareAck a item vt, env⟩)
    (hkept : Pending k cj u x a → Pending k cj u (x + 1) a)
    (h : (storeAt k cj u x).nacked.lookup a = some v) :
    (storeAt k cj u (x + 1)).nacked.lookup a = some v := by
  have hpending := hkept (Option.isSome_of_eq_some h)
  cases hr : u x with
  | none => rwa [storeAt_succ_none hr]
  | some r =>
      have hnot : ∀ item vt, r.inv ≠ .prepareAck a item vt := fun item vt hinv =>
        hprepare x item vt r.env (hinv ▸ hr)
      rw [Pending, storeAt_nacked hr] at hpending
      rw [storeAt_nacked hr]
      rw [← Store.evicted_nacked r.env] at h
      have hafter : (r.after k cj (storeAt k cj u x)).nacked.lookup a = some v ∨
          (r.after k cj (storeAt k cj u x)).nacked.lookup a = none := pending_kept h hnot
      refine hafter.resolve_right fun hnone => ?_
      rw [hnone] at hpending
      cases hpending

theorem lookup_since {a v : Bytes}
    (hprepare : ∀ i item vt env, u i ≠ some ⟨.prepareAck a item vt, env⟩)
    (hkept : ∀ i < m, Pending k cj u i a → Pending k cj u (i + 1) a)
    (h : (storeAt k cj u x).nacked.lookup a = some v) (hxy : x ≤ y) (hym : y ≤ m) :
    (storeAt k cj u y).nacked.lookup a = some v := by
  induction y, hxy using Nat.le_induction with
  | base => exact h
  | succ y hxy ih => exact lookup_kept hprepare (hkept y hym) (ih (by omega))

/-- As long as no entry leaves. -/
theorem holdsJust_since (hsize : OneSize u)
    (hprepare : ∀ a ∈ p.ids, ∀ i item vt env, u i ≠ some ⟨.prepareAck a item vt, env⟩)
    (hkept : ∀ i < m, ∀ a ∈ p.ids, Pending k cj u i a → Pending k cj u (i + 1) a)
    (hrun : u x = some ⟨.pop p, env⟩)
    (htaken : ((storeAt k cj u x).evicted env).taken k p.ids ≠ []) (hxy : x < y) (hym : y ≤ m) :
    (storeAt k cj u y).HoldsJust p.ids (((storeAt k cj u x).evicted env).taken k p.ids) := by
  induction y, hxy using Nat.le_induction with
  | base => exact holdsJust_taken hrun htaken
  | succ y hxy ih =>
      have hbefore := ih (by omega)
      intro a ha v
      rw [← hbefore a ha v]
      refine ⟨fun h => ?_, lookup_kept (hprepare a ha) (hkept y hym a ha)⟩
      cases hr : u y with
      | none => rwa [storeAt_succ_none hr] at h
      | some r =>
          rw [storeAt_nacked hr] at h
          rcases pending_cases h with ⟨h', _⟩ | ⟨p', hinv, hmem⟩ | ⟨vt, hinv⟩
          · rwa [Store.evicted_nacked] at h'
          · -- a pop under these IDs finds an entry pending
            have hr' : u y = some ⟨.pop p', r.env⟩ := by rw [hr, ← hinv]
            obtain ⟨hmem', hfree, _⟩ := Store.mem_taken hmem
            obtain ⟨_, _, hids⟩ := ids_eq_of_mem hsize hrun hr' ha hmem'
            have hholds := hbefore.holds (fun q hq => (Store.mem_taken hq).1) htaken
            rw [hids] at hholds
            rw [Store.holds, Store.evicted_nacked] at hfree
            rw [Store.holds, hfree] at hholds
            cases hholds
          · exact absurd (by rw [hr, ← hinv]) (hprepare a ha y v vt r.env)

end Entries

/-! ## The reservation -/

theorem Stage.want_of_reservation {stage : Stage} {r : Reservation}
    (h : stage.reservation = some r) : stage.want ≠ none := by
  cases stage with
  | puttingBack want r' => exact Option.some_ne_none _
  | reserved r' => exact Option.some_ne_none _
  | timed r' vt => exact Option.some_ne_none _
  | popping r' i => exact Option.some_ne_none _
  | _ => cases h

namespace World

variable {w : World} {c : ℕ} {call : Call} {t : Turn} {ev : Event} {o : Owner} {r : Reservation}

/-- The slot of `o` keeps `r`, and whoever has looked into it has no room for
it; or the slot is empty, and one call holds `r`, to pop under it or to put it
back. -/
inductive Retains (w : World) (o : Owner) (r : Reservation) : Prop
  | kept (hslot : (w.objects o).retryPop = some r)
      (hsmall : ∀ c call, w.calls c = some call → call.owner = o → call.stage.want ≠ none →
        (∃ want, call.stage = .swapping want) ∨ call.kind.limit < r.want)
  | held (c : ℕ) (call : Call) (hslot : (w.objects o).retryPop = none)
      (hcall : w.calls c = some call) (howner : call.owner = o)
      (hheld : call.stage.reservation = some r)
      (hroom : call.stage.under = some r ∨ call.kind.limit < r.want)

theorem Turns.same (h : w.Turns ev c call t) : w.calls c = none ∨ w.calls c = some call := by
  cases h with
  | begins c o consumer kind hnew hopen => exact Or.inl hnew
  | proceeds c call t hcall h => exact Or.inr hcall
  | reads c j call i reply t hcall hlog h => exact Or.inr hcall
  | fails c call t hcall h => exact Or.inr hcall

/-- The call of a turn looks into the slot next, if it is about to pop, or
has no room for `r`. -/
def Passes (t : Turn) (call : Call) (r : Reservation) : Prop :=
  t.stage.want ≠ none → (∃ want, t.stage = .swapping want) ∨ call.kind.limit < r.want

/-- A turn that leaves `r` in the slot. -/
theorem retains_of_kept (howner : call.owner = o) (hslot : t.object.retryPop = some r)
    (hpasses : Passes t call r)
    (hsmall : ∀ c' call', c' ≠ c → w.calls c' = some call' → call'.owner = o →
      call'.stage.want ≠ none → (∃ want, call'.stage = .swapping want) ∨
        call'.kind.limit < r.want) :
    (w.take c call t).Retains o r := by
  subst howner
  refine .kept ?_ fun c' call' hcall' howner' hwant => ?_
  · rw [take_object_self]
    exact hslot
  · by_cases hc : c' = c
    · subst hc
      rw [take_call_self] at hcall'
      cases hcall'
      exact hpasses hwant
    · rw [take_call_of_ne w call t hc] at hcall'
      exact hsmall c' call' hc hcall' howner' hwant

/-- A turn after which its call holds `r`. -/
theorem retains_of_held (howner : call.owner = o) (hslot : t.object.retryPop = none)
    (hheld : t.stage.reservation = some r)
    (hroom : t.stage.under = some r ∨ call.kind.limit < r.want) :
    (w.take c call t).Retains o r := by
  subst howner
  refine .held c { call with stage := t.stage } ?_ (take_call_self w c call t) rfl hheld hroom
  rw [take_object_self]
  exact hslot

/-- A turn of another object's call. -/
theorem Retains.other (h : w.Retains o r) (hturn : w.Turns ev c call t) (howner : call.owner ≠ o) :
    (w.take c call t).Retains o r := by
  have hobject := take_object_of_ne w c t (Ne.symm howner)
  cases h with
  | kept hslot hsmall =>
      refine .kept (hobject ▸ hslot) fun c' call' hcall' howner' hwant => ?_
      by_cases hc : c' = c
      · subst hc
        rw [take_call_self] at hcall'
        cases hcall'
        exact absurd howner' howner
      · rw [take_call_of_ne w call t hc] at hcall'
        exact hsmall c' call' hcall' howner' hwant
  | held c' call' hslot hcall' howner' hheld hroom =>
      have hc : c' ≠ c := by
        rintro rfl
        rcases hturn.same with hnew | hcall
        · rw [hcall'] at hnew
          cases hnew
        · rw [hcall'] at hcall
          cases hcall
          exact howner howner'
      exact .held c' call' (hobject ▸ hslot) ((take_call_of_ne w call t hc).trans hcall') howner'
        hheld hroom

/-- A turn of another call that leaves the slot as it is, while a call holds
`r`. -/
theorem retains_beside {c' : ℕ} {call' : Call} (howner : call.owner = o)
    (hslot : t.object.retryPop = none) (hc : c' ≠ c) (hcall' : w.calls c' = some call')
    (howner' : call'.owner = o) (hheld : call'.stage.reservation = some r)
    (hroom : call'.stage.under = some r ∨ call'.kind.limit < r.want) :
    (w.take c call t).Retains o r := by
  subst howner
  refine .held c' call' ?_ ((take_call_of_ne w call t hc).trans hcall') howner' hheld hroom
  rw [take_object_self]
  exact hslot

/-! ### Turns -/

theorem begin_passes (q : QueueObject) (next : ℕ) (call : Call) (r : Reservation) :
    Passes (call.begin q next) call r := by
  intro hwant
  unfold Call.begin at hwant ⊢
  split at hwant
  · exact absurd rfl hwant
  · exact absurd rfl hwant
  · split at hwant
    · exact absurd rfl hwant
    · exact absurd rfl hwant
  · exact Or.inl ⟨_, rfl⟩

theorem begin_retryPop (q : QueueObject) (next : ℕ) (call : Call) :
    (call.begin q next).object.retryPop = q.retryPop := by
  rcases Call.begin_object q next call with h | h
  · rw [h]
  · rw [h]

theorem passes_of_settled (h : t.stage.settled = true) : Passes t call r := fun hwant =>
  absurd (Stage.want_of_settled h) hwant

theorem putBack_of_some {q : QueueObject} {r' : Reservation} (h : q.retryPop = some r) :
    (Call.putBack r' q).retryPop = some r := by
  simp [Call.putBack, h]

theorem putBack_of_none {q : QueueObject} (h : q.retryPop = none) :
    (Call.putBack r q).retryPop = some r := by
  simp [Call.putBack, h]

/-- While the slot keeps `r`, a call of its own takes it over, if it has room
for it; takes it to put it back; or leaves it. -/
theorem retains_proceed_kept (hcall : w.calls c = some call)
    (h : call.proceed (w.objects call.owner) w.sent.length = some t) (howner : call.owner = o)
    (hslot : (w.objects o).retryPop = some r)
    (hsmall : ∀ c call, w.calls c = some call → call.owner = o → call.stage.want ≠ none →
      (∃ want, call.stage = .swapping want) ∨ call.kind.limit < r.want) :
    (w.take c call t).Retains o r := by
  subst howner
  have hothers := fun c' call' (_ : c' ≠ c) => hsmall c' call'
  have hpasses : (∀ want, call.stage ≠ .swapping want) → call.stage.want ≠ none →
      Passes t call r := fun hnot hwant _ =>
    Or.inr ((hsmall c call hcall rfl hwant).resolve_left fun ⟨want, hstage⟩ => hnot want hstage)
  have hdone : t.stage.settled = true → Passes t call r := passes_of_settled
  cases Call.proceeds_of_proceed h with
  | swapsNone want hstage hnone =>
      rw [hslot] at hnone
      cases hnone
  | swapsLarge want r' hstage hkept hlarge =>
      rw [hslot] at hkept
      cases hkept
      exact retains_of_held rfl rfl rfl (Or.inr hlarge)
  | swaps want r' hstage hkept hfits =>
      rw [hslot] at hkept
      cases hkept
      exact retains_of_held rfl rfl rfl (Or.inl rfl)
  | putsBack want r' hstage =>
      refine retains_of_kept rfl (putBack_of_some hslot) (hpasses ?_ ?_) hothers
      · simp [hstage]
      · simp [hstage, Stage.want]
  | adds want hstage =>
      refine retains_of_kept rfl hslot (hpasses ?_ ?_) hothers
      · simp [hstage]
      · simp [hstage, Stage.want]
  | times r' hstage =>
      refine retains_of_kept rfl hslot (hpasses ?_ ?_) hothers
      · simp [hstage]
      · simp [hstage, Stage.want]
  | pops r' vt hstage =>
      refine retains_of_kept rfl hslot (hpasses ?_ ?_) hothers
      · simp [hstage]
      · simp [hstage, Stage.want]
  | counts taken remaining run popLen hstage => exact retains_of_kept rfl hslot (hdone rfl) hothers
  | counted taken remaining run hstage => exact retains_of_kept rfl hslot (hdone rfl) hothers
  | sizes popLen hstage => exact retains_of_kept rfl hslot (hdone rfl) hothers

/-- The call that holds `r` puts it back, or goes on to pop under it. -/
theorem retains_proceed_held (h : call.proceed (w.objects call.owner) w.sent.length = some t)
    (howner : call.owner = o) (hslot : (w.objects o).retryPop = none)
    (hheld : call.stage.reservation = some r)
    (hroom : call.stage.under = some r ∨ call.kind.limit < r.want)
    (hidle : ∀ c' call', c' ≠ c → w.calls c' = some call' → call'.owner = o →
      call'.stage.want = none) : (w.take c call t).Retains o r := by
  subst howner
  cases Call.proceeds_of_proceed h with
  | putsBack want r' hstage =>
      rw [hstage] at hheld hroom
      cases hheld
      have hlarge := hroom.resolve_left fun hunder => by cases hunder
      refine retains_of_kept rfl (putBack_of_none hslot) (fun _ => Or.inr hlarge) ?_
      intro c' call' hc hcall' howner' hwant
      exact absurd (hidle c' call' hc hcall' howner') hwant
  | times r' hstage =>
      rw [hstage] at hheld
      cases hheld
      exact retains_of_held rfl hslot rfl (Or.inl rfl)
  | pops r' vt hstage =>
      rw [hstage] at hheld
      cases hheld
      exact retains_of_held rfl hslot rfl (Or.inl rfl)
  | swapsNone _ hstage | swapsLarge _ _ hstage | swaps _ _ hstage | adds _ hstage
  | counts _ _ _ _ hstage | counted _ _ _ hstage | sizes _ hstage =>
      rw [hstage] at hheld
      cases hheld

/-- A call that is not about to pop leaves the slot alone. -/
theorem Turns.retryPop_eq (h : w.Turns ev c call t) (hwant : call.stage.want = none) :
    t.object.retryPop = (w.objects call.owner).retryPop := by
  cases h with
  | begins c o consumer kind hnew hopen => exact begin_retryPop _ _ _
  | proceeds c call t hcall h =>
      cases Call.proceeds_of_proceed h with
      | counts _ _ _ _ hstage | counted _ _ _ hstage | sizes _ hstage => rfl
      | swapsNone _ hstage | swapsLarge _ _ hstage | swaps _ _ hstage | putsBack _ _ hstage
      | adds _ hstage | times _ hstage | pops _ _ hstage =>
          simp [hstage, Stage.want] at hwant
  | reads c j call i reply t hcall hlog h => rw [Call.read_object h]
  | fails c call t hcall h =>
      unfold Call.fail at h
      split at h
      · next r i hstage =>
          rw [hstage] at hwant
          cases hwant
      · cases h
        rfl
      · cases h

/-- A turn of `o`'s while the slot keeps `r`. -/
theorem retains_take_kept (hturn : w.Turns ev c call t) (howner : call.owner = o)
    (hslot : (w.objects o).retryPop = some r)
    (hsmall : ∀ c call, w.calls c = some call → call.owner = o → call.stage.want ≠ none →
      (∃ want, call.stage = .swapping want) ∨ call.kind.limit < r.want) :
    (w.take c call t).Retains o r := by
  have hothers := fun c' call' (_ : c' ≠ c) => hsmall c' call'
  subst howner
  cases hturn with
  | begins c o consumer kind hnew hopen =>
      exact retains_of_kept rfl ((begin_retryPop _ _ _).trans hslot) (begin_passes _ _ _ r) hothers
  | proceeds c call t hcall h => exact retains_proceed_kept hcall h rfl hslot hsmall
  | reads c j call i reply t hcall hlog h =>
      refine retains_of_kept rfl ?_ (passes_of_settled (Call.read_settled h).1) hothers
      rw [Call.read_object h]
      exact hslot
  | fails c call t hcall h =>
      refine retains_of_kept rfl ?_ (passes_of_settled (Call.fail_settled h).1) hothers
      rcases Call.fail_object h with hsame | ⟨r', hback⟩
      · rw [hsame]
        exact hslot
      · rw [hback]
        exact putBack_of_some hslot

/-- A turn of the call that holds `r`, other than reading a reply. -/
theorem retains_take_held (hturn : w.Turns ev c call t) (hcall : w.calls c = some call)
    (howner : call.owner = o) (hslot : (w.objects o).retryPop = none)
    (hheld : call.stage.reservation = some r)
    (hroom : call.stage.under = some r ∨ call.kind.limit < r.want)
    (hidle : ∀ c' call', c' ≠ c → w.calls c' = some call' → call'.owner = o →
      call'.stage.want = none) (hread : ∀ j, ev ≠ .read c j) : (w.take c call t).Retains o r := by
  subst howner
  cases hturn with
  | begins c o consumer kind hnew hopen =>
      rw [hcall] at hnew
      cases hnew
  | proceeds c call t _ h => exact retains_proceed_held h rfl hslot hheld hroom hidle
  | reads c j call i reply t _ hlog h => exact absurd rfl (hread j)
  | fails c call t _ h =>
      have hsettled := (Call.fail_settled h).1
      unfold Call.fail at h
      split at h
      · next r' i hstage =>
          cases h
          rw [hstage] at hheld
          cases hheld
          refine retains_of_kept rfl (putBack_of_none hslot) (passes_of_settled hsettled) ?_
          intro c' call' hc hcall' howner' hwant
          exact absurd (hidle c' call' hc hcall' howner') hwant
      · next i hstage =>
          rw [hstage] at hheld
          cases hheld
      · cases h

theorem Retains.take (h : w.Retains o r) (halone : w.Alone o) (hturn : w.Turns ev c call t)
    (hread : ∀ j, ev = .read c j → call.owner = o → call.stage.reservation ≠ some r) :
    (w.take c call t).Retains o r := by
  by_cases howner : call.owner = o
  · cases h with
    | kept hslot hsmall => exact retains_take_kept hturn howner hslot hsmall
    | held c' call' hslot hcall' howner' hheld hroom =>
        by_cases hc : c' = c
        · subst hc
          obtain rfl : call = call' := by
            have hsame := hturn.same
            rw [hcall'] at hsame
            exact (Option.some.inj (hsame.resolve_left (Option.some_ne_none _))).symm
          refine retains_take_held hturn hcall' howner hslot hheld hroom ?_ ?_
          · intro c'' call'' hne hcall'' howner''
            by_contra hwant
            exact hne (halone c'' c' call'' call hcall'' hcall' howner'' howner hwant
              (Stage.want_of_reservation hheld))
          · intro j hev
            exact hread j hev howner hheld
        · -- the turn is that of a call that is not about to pop
          have hwant : call.stage.want = none := by
            by_contra hwant
            have hcall := hturn.orderly.1.resolve_left fun hover => by
              rw [hover] at hwant
              exact hwant rfl
            exact hc (halone c' c call' call hcall' hcall howner' howner
              (Stage.want_of_reservation hheld) hwant)
          refine retains_beside howner ?_ hc hcall' howner' hheld hroom
          rw [hturn.retryPop_eq hwant, howner]
          exact hslot
  · exact h.other hturn howner

theorem Retains.of_same {w' : World} (h : w.Retains o r) (hcalls : w'.calls = w.calls)
    (hslot : (w'.objects o).retryPop = (w.objects o).retryPop) : w'.Retains o r := by
  cases h with
  | kept hkept hsmall => exact .kept (hslot.trans hkept) (hcalls ▸ hsmall)
  | held c call hkept hcall howner hheld hroom =>
      exact .held c call (hslot.trans hkept) (hcalls ▸ hcall) howner hheld hroom

/-- Only a call that reads its reply under `r` drops it. -/
theorem Retains.step (k : Kind) (cj : Cjson) (h : w.Retains o r) (halone : w.Alone o) (ev : Event)
    (hread : ∀ c j call i reply, ev = .read c j → w.calls c = some call → call.owner = o →
      call.stage = .popping r i → w.log[j]? ≠ some (i, reply)) : (w.step k cj ev).Retains o r := by
  have hchange := World.step_change k cj w ev
  generalize w.step k cj ev = w' at hchange ⊢
  cases hchange with
  | none => exact h
  | set o' f _ hkept => exact h.of_same rfl (w.set_keeps o' o (·.retryPop) hkept)
  | issue inv _ => exact h.of_same rfl rfl
  | run i env m _ _ => exact h.of_same rfl rfl
  | take c call t hturn =>
      refine h.take halone hturn fun j hev howner hheld => ?_
      subst hev
      cases hturn with
      | reads c j call i reply t hcall hlog ht =>
          have hawaits := Call.awaits_of_read ht
          cases hstage : call.stage with
          | popping r' i' =>
              rw [hstage] at hawaits hheld
              cases hawaits
              cases hheld
              exact hread c j call i reply rfl hcall howner hstage hlog
          | requeueing i' =>
              rw [hstage] at hheld
              cases hheld
          | _ =>
              rw [hstage] at hawaits
              cases hawaits

end World

section Calls

variable {k : Kind} {cj : Cjson} {e : ℕ → Event} {o : Owner} {n m x : ℕ} {r : Reservation}
  {call : Call} {c i : ℕ} {reply : Reply}

/-- In event `n` a pop call of `o` gets an error under `r`, and no earlier
failed reservation is kept. -/
def FailsUnder (k : Kind) (cj : Cjson) (e : ℕ → Event) (o : Owner) (n : ℕ) (r : Reservation) :
    Prop :=
  ∃ c call i, e n = .fail c ∧ (worldAt k cj e n).calls c = some call ∧ call.owner = o ∧
    call.stage = .popping r i ∧ ((worldAt k cj e n).objects o).retryPop = none

/-- In event `m` pop call `call` of `o` gets a reply to its script, number
`i`. -/
def Succeeds (k : Kind) (cj : Cjson) (e : ℕ → Event) (o : Owner) (m : ℕ) (call : Call) (i : ℕ)
    (reply : Reply) : Prop :=
  ∃ c j r, e m = .read c j ∧ (worldAt k cj e m).calls c = some call ∧ call.owner = o ∧
    call.stage = .popping r i ∧ (worldAt k cj e m).log[j]? = some (i, reply)

/-- It is the first after event `n` that has room for `r`. -/
structure FirstWithRoom (k : Kind) (cj : Cjson) (e : ℕ → Event) (o : Owner) (n m : ℕ)
    (r : Reservation) (call : Call) (i : ℕ) (reply : Reply) : Prop where
  later : n < m
  succeeds : Succeeds k cj e o m call i reply
  room : r.want ≤ call.kind.limit
  first : ∀ x call' i' reply', n < x → x < m → Succeeds k cj e o x call' i' reply' →
    call'.kind.limit < r.want

/-- It puts `r` into the slot, and its call is over. -/
theorem FailsUnder.succ (h : FailsUnder k cj e o n r) :
    ∃ c call, (worldAt k cj e n).calls c = some call ∧ call.owner = o ∧
      call.stage.under = some r ∧ ((worldAt k cj e n).objects o).retryPop = none ∧
      worldAt k cj e (n + 1) = (worldAt k cj e n).take c call
        ⟨Call.putBack r ((worldAt k cj e n).objects o), .ended, none⟩ := by
  obtain ⟨c, call, i, hev, hcall, rfl, hstage, hslot⟩ := h
  have hfail : call.fail ((worldAt k cj e n).objects call.owner) =
      some ⟨Call.putBack r ((worldAt k cj e n).objects call.owner), .ended, none⟩ := by
    simp only [Call.fail, hstage]
  refine ⟨c, call, hcall, rfl, by rw [hstage]; rfl, hslot, ?_⟩
  rw [worldAt_succ, hev]
  show (worldAt k cj e n).turn (.fail c) = _
  simp only [World.turn, World.turnOf, hcall, hfail, Option.bind_eq_bind, Option.bind_some,
    Option.pure_def]

theorem FailsUnder.retains (hturn : InTurn k cj e o) (h : FailsUnder k cj e o n r) :
    (worldAt k cj e (n + 1)).Retains o r := by
  obtain ⟨c, call, hcall, rfl, hunder, hslot, hstep⟩ := h.succ
  rw [hstep]
  refine World.retains_of_kept rfl (World.putBack_of_none hslot) (World.passes_of_settled rfl) ?_
  intro c' call' hc hcall' howner' hwant
  refine absurd (hturn.alone n c' c call' call hcall' hcall howner' rfl hwant ?_) hc
  rw [Stage.want_of_under hunder]
  exact Option.some_ne_none _

theorem InTurn.retains (hturn : InTurn k cj e o) (h : FailsUnder k cj e o n r) (hnx : n < x)
    (hfirst : ∀ y call' i' reply', n < y → y < x → Succeeds k cj e o y call' i' reply' →
      call'.kind.limit < r.want) : (worldAt k cj e x).Retains o r := by
  induction x, hnx using Nat.le_induction with
  | base => exact h.retains hturn
  | succ x hnx ih =>
      rw [worldAt_succ]
      refine (ih fun y call' i' reply' hny hyx => hfirst y call' i' reply' hny
        (Nat.lt_succ_of_lt hyx)).step k cj (hturn.alone x) (e x) ?_
      intro c j call i reply hev hcall howner hstage hlog
      have hsmall := hfirst x call i reply hnx x.lt_succ_self
        ⟨c, j, r, hev, hcall, howner, hstage, hlog⟩
      have hfits : r.want ≤ call.kind.limit := by
        apply (worldAt_reserved k cj e x).fits c call hcall
        rw [hstage]
        rfl
      exact absurd hsmall (not_lt.mpr hfits)

/-- The first call with room for it that succeeds does so under `r`. -/
theorem FirstWithRoom.under (hturn : InTurn k cj e o) (h : FailsUnder k cj e o n r)
    (hfirst : FirstWithRoom k cj e o n m r call i reply) : call.stage = .popping r i := by
  obtain ⟨c, j, r', hev, hcall, howner, hstage, hlog⟩ := hfirst.succeeds
  have hwant : call.stage.want ≠ none := by
    rw [hstage]
    exact Option.some_ne_none _
  cases hturn.retains h hfirst.later hfirst.first with
  | kept hslot hsmall =>
      rcases hsmall c call hcall howner hwant with ⟨want, hswapping⟩ | hlimit
      · rw [hstage] at hswapping
        cases hswapping
      · exact absurd hlimit (not_lt.mpr hfirst.room)
  | held c' call' hslot hcall' howner' hheld hroom =>
      obtain rfl := hturn.alone m c c' call call' hcall hcall' howner howner' hwant
        (Stage.want_of_reservation hheld)
      obtain rfl := Option.some.inj (hcall.symm.trans hcall')
      rw [hstage] at hheld ⊢
      cases hheld
      rfl

/-! ## Whose runs -/

/-- A call waits for its reply from the moment it sent its script. -/
theorem popping_since (hcall : (worldAt k cj e m).calls c = some call)
    (hstage : call.stage = .popping r i) (hxm : x ≤ m)
    (hsent : i < (worldAt k cj e x).sent.length) : (worldAt k cj e x).calls c = some call := by
  induction m, hxm using Nat.le_induction with
  | base => exact hcall
  | succ m hxm ih =>
      have hlength : i < (worldAt k cj e m).sent.length := by
        obtain ⟨msg, hmsg⟩ : ∃ msg, (worldAt k cj e x).sent[i]? = some msg :=
          ⟨_, List.getElem?_eq_getElem hsent⟩
        exact (List.getElem?_eq_some_iff.mp (sent_of_le k cj e hxm hmsg)).1
      refine ih ?_
      rw [worldAt_succ] at hcall
      have hchange := World.step_change k cj (worldAt k cj e m) (e m)
      generalize (worldAt k cj e m).step k cj (e m) = w' at hchange hcall
      cases hchange with
      | none => exact hcall
      | set o' f _ _ => exact hcall
      | issue inv _ => exact hcall
      | run i env msg _ _ => exact hcall
      | take c' call' t hturn =>
          by_cases hc : c = c'
          · subst hc
            rw [World.take_call_self] at hcall
            cases hcall
            -- the turn would be the one that sends the script
            have hawaits : t.stage.awaits = some i := by
              rw [show t.stage = .popping r i from hstage]
              rfl
            have hnext := (hturn.awaitsSent i hawaits).1
            omega
          · rwa [World.take_call_of_ne _ call' t hc] at hcall

/-- The run at moment `x` is one of script number `i`, a pop of `o` under
`r`. -/
structure RunUnder (k : Kind) (cj : Cjson) (e : ℕ → Event) (o : Owner) (r : Reservation) (x i : ℕ)
    (p : PopCall) (env : Env) : Prop where
  event : e x = .run i env
  run : scriptRuns k cj e x = some ⟨.pop p, env⟩
  owner : p.args.owner = o
  start : p.args.start = r.start

variable {j : ℕ} {p : PopCall} {env : Env}

theorem RunUnder.sent (h : RunUnder k cj e o r x j p env) :
    ∃ msg, (worldAt k cj e x).sent[j]? = some msg ∧ msg.inv = .pop p := by
  have hrun := h.run
  rw [scriptRuns, h.event, World.scriptRun] at hrun
  obtain ⟨msg, hmsg, heq⟩ := Option.map_eq_some_iff.mp hrun
  exact ⟨msg, hmsg, congrArg ScriptRun.inv heq⟩

theorem RunUnder.lt_length (h : RunUnder k cj e o r x j p env) :
    j < (worldAt k cj e x).sent.length := by
  obtain ⟨msg, hmsg, _⟩ := h.sent
  exact (List.getElem?_eq_some_iff.mp hmsg).1

/-- The IDs of a pop under the reservation of a call that waits. -/
theorem RunUnder.ids (h : RunUnder k cj e o r x j p env)
    (hcall : (worldAt k cj e m).calls c = some call) (howner : call.owner = o)
    (hstage : call.stage = .popping r i) : p.ids = ackIDs o r.start r.want := by
  obtain ⟨inv, hsent, hsends⟩ := waits_for_own k cj e hcall (i := i) (by rw [hstage]; rfl)
  rw [Call.Sends, hstage] at hsends
  obtain ⟨vt, hbt, rfl⟩ := hsends
  have hfits : r.want ≤ call.kind.limit := by
    apply (worldAt_reserved k cj e m).fits c call hcall
    rw [hstage]
    rfl
  obtain ⟨msg, hmsg, hinv⟩ := h.sent
  have hmine := mem_sent_of_le k cj e (le_max_left m x) (List.mem_of_getElem? hsent)
  have hother := mem_sent_of_le k cj e (le_max_right m x) (List.mem_of_getElem? hmsg)
  have hwant : p.want = r.want :=
    (worldAt_reserved k cj e (max m x)).sized o r.start _ _
      (.sent msg p hother hinv ⟨h.owner, h.start, rfl⟩)
      (.sent _ _ hmine rfl (howner ▸ Call.popCall_under hfits vt hbt))
  rw [PopCall.ids, h.owner, h.start, hwant]

/-- What runs under the reservation of a call that waits, once its script is
sent, is that script. -/
theorem RunUnder.own (hturn : OnTime k cj e o) (h : RunUnder k cj e o r x j p env)
    (hcall : (worldAt k cj e m).calls c = some call) (howner : call.owner = o)
    (hstage : call.stage = .popping r i) (hxm : x ≤ m)
    (hsent : i < (worldAt k cj e x).sent.length) : j = i := by
  have hthen := popping_since hcall hstage hxm hsent
  obtain ⟨msg, hmsg, hinv⟩ := h.sent
  obtain ⟨c', call', r', _, hcall', howner', hstage', _⟩ :=
    hturn.waiting h.event hmsg hinv h.owner
  obtain rfl : c' = c := by
    refine hturn.alone x c' c call' call hcall' hthen howner' howner ?_ ?_
    · rw [hstage']
      exact Option.some_ne_none _
    · rw [hstage]
      exact Option.some_ne_none _
  obtain rfl := Option.some.inj (hcall'.symm.trans hthen)
  rw [hstage] at hstage'
  cases hstage'
  rfl

/-- An earlier script under the reservation runs before the call's own does. -/
theorem RunUnder.lt_of_lt (hturn : OnTime k cj e o) (h : RunUnder k cj e o r x j p env)
    (hcall : (worldAt k cj e m).calls c = some call) (howner : call.owner = o)
    (hstage : call.stage = .popping r i) (hxm : x ≤ m) (hji : j < i) {y : ℕ} {p' : PopCall}
    {env' : Env} (hown : RunUnder k cj e o r y i p' env') : x < y := by
  by_contra hle
  have hsent : i < (worldAt k cj e x).sent.length := by
    obtain ⟨msg, hmsg, _⟩ := hown.sent
    exact (List.getElem?_eq_some_iff.mp (sent_of_le k cj e (not_lt.mp hle) hmsg)).1
  have heq := h.own hturn hcall howner hstage hxm hsent
  omega

/-- The scripts that ran before the failure are earlier ones. -/
theorem FailsUnder.lt (hturn : InTurn k cj e o) (hfails : FailsUnder k cj e o n r) (hnm : n < m)
    (hcall : (worldAt k cj e m).calls c = some call) (howner : call.owner = o)
    (hstage : call.stage = .popping r i) (hxn : x < n) (h : RunUnder k cj e o r x j p env) :
    j < i := by
  by_contra hle
  have hsent : i < (worldAt k cj e x).sent.length := lt_of_le_of_lt (not_lt.mp hle) h.lt_length
  have hsent' : ∀ y, x ≤ y → i < (worldAt k cj e y).sent.length := by
    intro y hxy
    obtain ⟨msg, hmsg⟩ : ∃ msg, (worldAt k cj e x).sent[i]? = some msg :=
      ⟨_, List.getElem?_eq_getElem hsent⟩
    exact (List.getElem?_eq_some_iff.mp (sent_of_le k cj e hxy hmsg)).1
  have hthen := popping_since hcall hstage hnm.le (hsent' n hxn.le)
  have hafter := popping_since hcall hstage hnm (hsent' (n + 1) (by omega))
  obtain ⟨c', call', hcall', howner', hunder, _, hstep⟩ := hfails.succ
  obtain rfl : c' = c := by
    refine hturn.alone n c' c call' call hcall' hthen howner' howner ?_ ?_
    · rw [Stage.want_of_under hunder]
      exact Option.some_ne_none _
    · rw [hstage]
      exact Option.some_ne_none _
  -- the failed call is over, the other one still waits
  rw [hstep, World.take_call_self] at hafter
  obtain rfl := Option.some.inj hafter
  cases hstage

/-! ## What comes back -/

/-- What the run of `p` at moment `x` takes off the queue. -/
def takenAt (k : Kind) (cj : Cjson) (e : ℕ → Event) (x : ℕ) (p : PopCall) (env : Env) :
    List (Bytes × Bytes) :=
  ((storeAt k cj (scriptRuns k cj e) x).evicted env).taken k p.ids

/-- Until event `m` the queue is not paused, and no entry under `r` is made
pending by hand, finished or requeued. -/
structure Calm (k : Kind) (cj : Cjson) (e : ℕ → Event) (o : Owner) (r : Reservation) (m : ℕ) :
    Prop where
  unpaused : ∀ x < m, (storeAt k cj (scriptRuns k cj e) x).paused = none
  unprepared : ∀ a ∈ ackIDs o r.start r.want, ∀ x item vt env,
    scriptRuns k cj e x ≠ some ⟨.prepareAck a item vt, env⟩
  kept : ∀ x < m, ∀ a ∈ ackIDs o r.start r.want, Pending k cj (scriptRuns k cj e) x a →
    Pending k cj (scriptRuns k cj e) (x + 1) a

/-- The call that gets `reply` to script `i` in event `m` returns what an
earlier run under `r` popped, and its own runs take nothing; or, if none
popped anything, what a run of its own finds at the head of the queue and, if
that is something, no other takes more. -/
structure ComesBack (k : Kind) (cj : Cjson) (e : ℕ → Event) (o : Owner) (r : Reservation) (m : ℕ)
    (call : Call) (i : ℕ) (reply : Reply) (earlier : ℕ → ℕ → Prop) : Prop where
  popped : ∀ x j p env, x < m → earlier x j → RunUnder k cj e o r x j p env →
    takenAt k cj e x p env ≠ [] → call.returned reply = takenAt k cj e x p env ∧
      ∀ y p' env', y < m → RunUnder k cj e o r y i p' env' →
        KeepsQueue k cj (scriptRuns k cj e) y env'
  fresh : (∀ x j p env, x < m → earlier x j → RunUnder k cj e o r x j p env →
      takenAt k cj e x p env = []) →
    ∃ x p env, x < m ∧ RunUnder k cj e o r x i p env ∧
      call.returned reply =
        p.ids.zip (((storeAt k cj (scriptRuns k cj e) x).evicted env).head k p.ids) ∧
      (call.returned reply ≠ [] → ∀ y p' env', y < m → y ≠ x → RunUnder k cj e o r y i p' env' →
        KeepsQueue k cj (scriptRuns k cj e) y env')

/-- What the call returns is pending in event `m`, with deadlines of at least
those of the run that gave the reply. -/
def Due (k : Kind) (cj : Cjson) (e : ℕ → Event) (o : Owner) (r : Reservation) (m : ℕ) (call : Call)
    (i : ℕ) (reply : Reply) : Prop :=
  ∃ x p env, x < m ∧ RunUnder k cj e o r x i p env ∧
    reply = ScriptRun.reply k cj (storeAt k cj (scriptRuns k cj e) x) ⟨.pop p, env⟩ ∧
    ∀ a v, (a, v) ∈ call.returned reply →
      (worldAt k cj e m).store.nacked.lookup a = some v ∧
        (0 < p.args.vt → ∃ d, deadline env p.args.vt ≤ d ∧
          (worldAt k cj e m).store.timeouts.score a = some d)

/-- A call that waits for its reply under `r` at moment `m`. -/
structure WaitsUnder (k : Kind) (cj : Cjson) (e : ℕ → Event) (o : Owner) (r : Reservation)
    (m c : ℕ) (call : Call) (i : ℕ) : Prop where
  calls : (worldAt k cj e m).calls c = some call
  owner : call.owner = o
  stage : call.stage = .popping r i

section Waiting

variable {y i' : ℕ} {p' : PopCall} {env' : Env}

/-- What an earlier run took, its own runs find pending. -/
theorem WaitsUnder.holdsJust (hw : WaitsUnder k cj e o r m c call i) (hcalm : Calm k cj e o r m)
    (hx : RunUnder k cj e o r x j p env) (htaken : takenAt k cj e x p env ≠ []) (hxy : x < y)
    (hym : y ≤ m) :
    (storeAt k cj (scriptRuns k cj e) y).HoldsJust (ackIDs o r.start r.want)
      (takenAt k cj e x p env) := by
  have hids := hx.ids hw.calls hw.owner hw.stage
  have hsince := holdsJust_since (k := k) (y := y) (m := m) (oneSize_scriptRuns k cj e)
    (hids ▸ hcalm.unprepared) (hids ▸ hcalm.kept) hx.run htaken hxy hym
  rw [takenAt, hids]
  rw [hids] at hsince
  exact hsince

/-- After a run that took something, the next ones under the reservation hand
that back, and take nothing. -/
theorem WaitsUnder.handedBack (hw : WaitsUnder k cj e o r m c call i)
    (hcalm : Calm k cj e o r m) (hx : RunUnder k cj e o r x j p env)
    (htaken : takenAt k cj e x p env ≠ []) (hxy : x < y) (hym : y < m)
    (hy : RunUnder k cj e o r y i' p' env') :
    takenAt k cj e y p' env' = [] ∧
      ((storeAt k cj (scriptRuns k cj e) y).evicted env').handed k p' =
        takenAt k cj e x p env := by
  have hids := hx.ids hw.calls hw.owner hw.stage
  have hids' := hy.ids hw.calls hw.owner hw.stage
  have hjust : ((storeAt k cj (scriptRuns k cj e) y).evicted env').HoldsJust p'.ids
      (takenAt k cj e x p env) := by
    rw [hids', Store.HoldsJust, Store.evicted_nacked]
    exact hw.holdsJust hcalm hx htaken hxy hym.le
  have hmem : ∀ q ∈ takenAt k cj e x p env, q.1 ∈ p'.ids := by
    intro q hq
    rw [hids', ← hids]
    exact (Store.mem_taken hq).1
  have hholds := hjust.holds hmem htaken
  have hzip := (Store.taken_eq htaken).2
  refine ⟨?_, ?_⟩
  · rw [takenAt, Store.taken, if_pos (Or.inl hholds)]
  · rw [Store.handed, if_pos hholds]
    rw [takenAt, hzip, hids, ← hids'] at hjust ⊢
    exact hjust.leading (ackIDs_nodup _ _ _)

theorem RunUnder.keepsQueue (hx : RunUnder k cj e o r x j p env)
    (htaken : takenAt k cj e x p env = []) : KeepsQueue k cj (scriptRuns k cj e) x env :=
  keepsQueue_of_taken hx.run htaken

/-- The run whose reply a call reads. -/
theorem WaitsUnder.read (hw : WaitsUnder k cj e o r m c call i)
    (hlog : (worldAt k cj e m).log[j]? = some (i, reply)) :
    ∃ x p env, x < m ∧ RunUnder k cj e o r x i p env ∧
      reply = ScriptRun.reply k cj (storeAt k cj (scriptRuns k cj e) x) ⟨.pop p, env⟩ ∧
      call.returned reply = p.returned reply ∧
      call.returned reply = ((storeAt k cj (scriptRuns k cj e) x).evicted env).handed k p := by
  obtain ⟨x, hxm, vt, hbt, env, hruns, hids, hreply⟩ := run_of_read hw.calls hw.stage hlog
  have hreturned : call.returned reply = (call.popCall r vt hbt).returned reply := by
    rw [Call.returned, hw.stage, PopCall.returned, hids]
  refine ⟨x, _, env, hxm, ⟨hruns.1, hruns.2.2.1, hw.owner, rfl⟩, hreply, hreturned, ?_⟩
  rw [hreturned, hreply, ScriptRun.reply, ScriptRun.exec, Invocation.script, PopCall.returned_eq]

theorem WaitsUnder.due (hw : WaitsUnder k cj e o r m c call i) (hcalm : Calm k cj e o r m)
    (hlog : (worldAt k cj e m).log[j]? = some (i, reply)) : Due k cj e o r m call i reply := by
  obtain ⟨x, p, env, hxm, hx, hreply, hreturned, _⟩ := hw.read hlog
  refine ⟨x, p, env, hxm, hx, hreply, fun a v hmem => ?_⟩
  have hreturns : Returns k cj (scriptRuns k cj e) x p env a v :=
    ⟨hx.run, by rw [← hreply, ← hreturned]; exact hmem⟩
  have ha : a ∈ ackIDs o r.start r.want := by
    rw [← hx.ids hw.calls hw.owner hw.stage]
    exact hreturns.mem_ids
  have hlookup : ∀ y, x < y → y ≤ m →
      (storeAt k cj (scriptRuns k cj e) y).nacked.lookup a = some v := fun y hxy hym =>
    lookup_since (hcalm.unprepared a ha) (fun z hz => hcalm.kept z hz a ha) hreturns.pending.1
      hxy hym
  rw [worldAt_store]
  refine ⟨hlookup m hxm le_rfl, fun hvt => ?_⟩
  exact deadline_at (hcalm.unprepared a ha) hreturns hvt hxm fun y hxy hym =>
    Option.isSome_of_eq_some (hlookup y hxy hym)

/-- What earlier runs popped comes back. -/
theorem WaitsUnder.popped (hw : WaitsUnder k cj e o r m c call i) (hturn : OnTime k cj e o)
    (hcalm : Calm k cj e o r m) {l : ℕ} (hlog : (worldAt k cj e m).log[l]? = some (i, reply))
    (hxm : x < m) (hji : j < i) (hx : RunUnder k cj e o r x j p env)
    (htaken : takenAt k cj e x p env ≠ []) :
    call.returned reply = takenAt k cj e x p env ∧
      ∀ y p' env', y < m → RunUnder k cj e o r y i p' env' →
        KeepsQueue k cj (scriptRuns k cj e) y env' := by
  have hlater : ∀ {y : ℕ} {p' : PopCall} {env' : Env}, RunUnder k cj e o r y i p' env' → x < y :=
    fun hy => hx.lt_of_lt hturn hw.calls hw.owner hw.stage hxm.le hji hy
  constructor
  · obtain ⟨y, p', env', hym, hy, _, _, hhanded⟩ := hw.read hlog
    rw [hhanded]
    exact (hw.handedBack hcalm hx htaken (hlater hy) hym hy).2
  · intro y p' env' hym hy
    exact hy.keepsQueue (hw.handedBack hcalm hx htaken (hlater hy) hym hy).1

/-- A run that finds an entry of its own pending comes after one that took
it. -/
theorem WaitsUnder.took (hw : WaitsUnder k cj e o r m c call i) (hturn : OnTime k cj e o)
    (hcalm : Calm k cj e o r m)
    (hnone : ∀ x j p env, x < m → j < i → RunUnder k cj e o r x j p env →
      takenAt k cj e x p env = []) (hxm : x < m) (hx : RunUnder k cj e o r x i p env)
    (hholds : ((storeAt k cj (scriptRuns k cj e) x).evicted env).holds p.ids = true) :
    ∃ y p' env', y < x ∧ RunUnder k cj e o r y i p' env' ∧ takenAt k cj e y p' env' ≠ [] := by
  obtain ⟨a, ha, hsome⟩ := List.any_eq_true.mp hholds
  rw [Store.evicted_nacked] at hsome
  obtain ⟨v, hv⟩ := Option.isSome_iff_exists.mp hsome
  have ha' : a ∈ ackIDs o r.start r.want := by
    rw [← hx.ids hw.calls hw.owner hw.stage]
    exact ha
  obtain ⟨y, hyx, p', env', htakes⟩ := taken_of_pending (hcalm.unprepared a ha') hv
  obtain ⟨howner, hstart, _⟩ :=
    ids_eq_of_mem (oneSize_scriptRuns k cj e) hx.run htakes.1 ha htakes.mem_ids
  have htaken : takenAt k cj e y p' env' ≠ [] := List.ne_nil_of_mem htakes.2
  obtain ⟨j', _, hevent, _, _⟩ := event_of_run k cj e htakes.1
  have hy : RunUnder k cj e o r y j' p' env' :=
    ⟨hevent, htakes.1, howner.symm.trans hx.owner, hstart.symm.trans hx.start⟩
  -- it is no run of an earlier script, so it is one of this one
  have hle : i ≤ j' := by
    by_contra hlt
    exact htaken (hnone y j' p' env' (hyx.trans hxm) (not_le.mp hlt) hy)
  obtain rfl : j' = i := hy.own hturn hw.calls hw.owner hw.stage (hyx.trans hxm).le
    (lt_of_le_of_lt hle hy.lt_length)
  exact ⟨y, p', env', hyx, hy, htaken⟩

/-- Where no earlier run popped anything, the call pops. -/
theorem WaitsUnder.fresh (hw : WaitsUnder k cj e o r m c call i) (hturn : OnTime k cj e o)
    (hcalm : Calm k cj e o r m) {l : ℕ} (hlog : (worldAt k cj e m).log[l]? = some (i, reply))
    (hnone : ∀ x j p env, x < m → j < i → RunUnder k cj e o r x j p env →
      takenAt k cj e x p env = []) :
    ∃ x p env, x < m ∧ RunUnder k cj e o r x i p env ∧
      call.returned reply =
        p.ids.zip (((storeAt k cj (scriptRuns k cj e) x).evicted env).head k p.ids) ∧
      (call.returned reply ≠ [] → ∀ y p' env', y < m → y ≠ x → RunUnder k cj e o r y i p' env' →
        KeepsQueue k cj (scriptRuns k cj e) y env') := by
  obtain ⟨x, p, env, hxm, hx, _, _, hhanded⟩ := hw.read hlog
  -- what it returns, one of its runs took
  obtain ⟨y, p', env', hym, hy, hreturned, hzip⟩ : ∃ y p' env', y < m ∧
      RunUnder k cj e o r y i p' env' ∧ call.returned reply = takenAt k cj e y p' env' ∧
      takenAt k cj e y p' env' =
        p'.ids.zip (((storeAt k cj (scriptRuns k cj e) y).evicted env').head k p'.ids) := by
    by_cases hholds : ((storeAt k cj (scriptRuns k cj e) x).evicted env).holds p.ids = true
    · obtain ⟨y, p', env', hyx, hy, htaken⟩ := hw.took hturn hcalm hnone hxm hx hholds
      refine ⟨y, p', env', hyx.trans hxm, hy, ?_, (Store.taken_eq htaken).2⟩
      rw [hhanded]
      exact (hw.handedBack hcalm hy htaken hyx hxm hx).2
    · refine ⟨x, p, env, hxm, hx, ?_, ?_⟩
      · rw [hhanded, Store.handed, if_neg hholds]
        rfl
      · have hpaused : ((storeAt k cj (scriptRuns k cj e) x).evicted env).paused = none := by
          obtain ⟨_, _, _, heq⟩ := (storeAt k cj (scriptRuns k cj e) x).evicted_eq env
          rw [heq]
          exact hcalm.unpaused x hxm
        rw [takenAt, Store.taken, if_neg]
        rw [hpaused]
        exact not_or.mpr ⟨hholds, Bool.false_ne_true⟩
  refine ⟨y, p', env', hym, hy, hreturned.trans hzip, fun hsome z p₁ env₁ hzm hne hz => ?_⟩
  rw [hreturned] at hsome
  refine hz.keepsQueue ?_
  by_contra htaken
  rcases Nat.lt_or_gt_of_ne hne with hlt | hgt
  · exact hsome (hw.handedBack hcalm hz htaken hlt hym hy).1
  · exact htaken (hw.handedBack hcalm hy hsome hgt hzm hz).1

end Waiting

theorem FailsUnder.waits (h : FailsUnder k cj e o n r) :
    ∃ c call i, WaitsUnder k cj e o r n c call i :=
  let ⟨c, call, i, _, hcall, howner, hstage, _⟩ := h
  ⟨c, call, i, hcall, howner, hstage⟩

/-- A pop of a call with too little room is after other IDs. -/
theorem FailsUnder.spares (hfails : FailsUnder k cj e o n r) (hturn : OnTime k cj e o)
    (hev : e x = .run j env) (hsent : (worldAt k cj e x).sent[j]? = some ⟨some c, .pop p⟩)
    (hcall : (worldAt k cj e x).calls c = some call) (hsmall : call.kind.limit < r.want)
    {a : Bytes} (ha : a ∈ ackIDs o r.start r.want) : a ∉ p.ids := by
  intro hmem
  obtain ⟨_, _, rfl⟩ := mem_ackIDs.mp ha
  obtain ⟨_, _, hid⟩ := mem_ackIDs.mp hmem
  obtain ⟨howner, hstart, _⟩ := ackIDOf_injective hid
  obtain ⟨c', call', r', hc, hcall', howner', hstage', hstart'⟩ :=
    hturn.waiting hev hsent rfl howner.symm
  cases hc
  obtain rfl := Option.some.inj (hcall.symm.trans hcall')
  have hrun : scriptRuns k cj e x = some ⟨.pop p, env⟩ := by
    rw [scriptRuns, hev, World.scriptRun, hsent]
    rfl
  have hx : RunUnder k cj e o r x j p env := ⟨hev, hrun, howner.symm, hstart.symm⟩
  have hx' : RunUnder k cj e o r' x j p env := ⟨hev, hrun, howner.symm, hstart'⟩
  obtain ⟨c₀, call₀, i₀, hw⟩ := hfails.waits
  have hlength := congrArg List.length ((hx.ids hw.calls hw.owner hw.stage).symm.trans
    (hx'.ids hcall howner' hstage'))
  rw [length_ackIDs, length_ackIDs] at hlength
  have hfits : r'.want ≤ call.kind.limit := by
    apply (worldAt_reserved k cj e x).fits c call hcall
    rw [hstage']
    rfl
  rw [← PNat.coe_inj.mp hlength] at hfits
  exact absurd hsmall (not_lt.mpr hfits)

/-- **A failed call's items come back.**  Of the pop calls of an object, one
after another and with no script that runs after its call, one fails under
`r`, with no earlier failed reservation kept.
Calls with less room leave the entries under `r` alone.  The first later one
with as much room that succeeds returns what was popped under `r` before its
script was sent, by the failed call or by one that took the reservation over
and failed too, and takes nothing more; if nothing was, it pops. -/
theorem failed_call_comes_back (k : Kind) (cj : Cjson) (e : ℕ → Event) (o : Owner)
    (hturn : OnTime k cj e o) {n : ℕ} {r : Reservation} (hfails : FailsUnder k cj e o n r) :
    (∀ x c call j p env a, e x = .run j env →
      (worldAt k cj e x).sent[j]? = some ⟨some c, .pop p⟩ →
      (worldAt k cj e x).calls c = some call → call.kind.limit < r.want →
      a ∈ ackIDs o r.start r.want →
        a ∉ p.ids ∧ Unmoved a (worldAt k cj e x).store (worldAt k cj e (x + 1)).store) ∧
      ∀ m call i reply, FirstWithRoom k cj e o n m r call i reply → Calm k cj e o r m →
        call.stage = .popping r i ∧
          (∀ x j p env, x < n → RunUnder k cj e o r x j p env → j < i) ∧
          ComesBack k cj e o r m call i reply (fun _ j => j < i) ∧
          Due k cj e o r m call i reply := by
  constructor
  · intro x c call j p env a hev hsent hcall hsmall ha
    have hnot := hfails.spares hturn hev hsent hcall hsmall ha
    have hrun : scriptRuns k cj e x = some ⟨.pop p, env⟩ := by
      rw [scriptRuns, hev, World.scriptRun, hsent]
      rfl
    rw [worldAt_store, worldAt_store]
    exact ⟨hnot, unmoved_of_run hrun hnot⟩
  · intro m call i reply hfirst hcalm
    have hstage := hfirst.under hturn.toInTurn hfails
    obtain ⟨c, l, _, _, hcall, howner, _, hlog⟩ := hfirst.succeeds
    have hw : WaitsUnder k cj e o r m c call i := ⟨hcall, howner, hstage⟩
    refine ⟨hstage, ?_, ⟨?_, ?_⟩, hw.due hcalm hlog⟩
    · intro x j p env hxn hx
      exact hfails.lt hturn.toInTurn hfirst.later hcall howner hstage hxn hx
    · intro x j p env hxm hji hx htaken
      exact hw.popped hturn hcalm hlog hxm hji hx htaken
    · intro hnone
      exact hw.fresh hturn hcalm hlog hnone

end Calls

/-- A pop of two items fails before its script runs, another one takes over its
reservation, pops the one item there is and fails too; then a second item
comes, and a third call gets its reply. -/
def handedOn : ℕ → Event
  | 0 => .issue (.push ⟨[97], 0, 0, false, none⟩)
  | 1 => .run 0 (.plain 0 fun _ => 0)
  | 2 => .start 0 ownerA false (.dequeueBatch 2)
  | 3 => .proceed 0
  | 4 => .proceed 0
  | 5 => .proceed 0
  | 6 => .proceed 0
  | 7 => .fail 0
  | 8 => .start 1 ownerA false (.dequeueBatch 2)
  | 9 => .proceed 1
  | 10 => .proceed 1
  | 11 => .proceed 1
  | 12 => .run 2 (.plain 1 fun _ => 0)
  | 13 => .fail 1
  | 14 => .issue (.push ⟨[98], 0, 0, false, none⟩)
  | 15 => .run 3 (.plain 2 fun _ => 0)
  | 16 => .start 2 ownerA false (.dequeueBatch 2)
  | 17 => .proceed 2
  | 18 => .proceed 2
  | 19 => .proceed 2
  | 20 => .run 4 (.plain 3 fun _ => 0)
  | 21 => .read 2 3
  | _ => .fail 0

theorem handedOn_starts {n c : ℕ} {o : Owner} {consumer : Bool} {kind : CallKind}
    (h : handedOn n = .start c o consumer kind) :
    n = 2 ∧ c = 0 ∨ n = 8 ∧ c = 1 ∨ n = 16 ∧ c = 2 := by
  match n, h with
  | 2, h => cases h; exact Or.inl ⟨rfl, rfl⟩
  | 8, h => cases h; exact Or.inr (Or.inl ⟨rfl, rfl⟩)
  | 16, h => cases h; exact Or.inr (Or.inr ⟨rfl, rfl⟩)
  | n + 22, h => cases h

theorem handedOn_pops {n : ℕ} {p : PopCall} {env : Env}
    (h : scriptRuns .fifo .none handedOn n = some ⟨.pop p, env⟩) :
    (n = 12 ∨ n = 20) ∧ p = ⟨⟨ownerA, 1, 300 * second, 30 * second, false⟩, .batch 2 2⟩ := by
  match n, h with
  | 12, h => cases h; exact ⟨Or.inl rfl, rfl⟩
  | 20, h => cases h; exact ⟨Or.inr rfl, rfl⟩
  | n + 22, h => cases h

theorem handedOn_onTime : OnTime .fifo .none handedOn ownerA where
  starts n c consumer kind hev hpops c' call hcall howner := by
    obtain ⟨m, hm, consumer', hstart⟩ := started_of_call hcall
    have hearlier := handedOn_starts hstart
    rcases handedOn_starts hev with ⟨rfl, _⟩ | ⟨rfl, _⟩ | ⟨rfl, _⟩
    · omega
    · obtain rfl : c' = 0 := by omega
      obtain rfl := Option.some.inj hcall
      rfl
    · obtain rfl | rfl : c' = 0 ∨ c' = 1 := by omega
      · obtain rfl := Option.some.inj hcall
        rfl
      · obtain rfl := Option.some.inj hcall
        rfl
  runs n p env hrun howner := by
    rcases (handedOn_pops hrun).1 with rfl | rfl
    · exact ⟨1, 2, _, _, _, rfl, rfl, rfl, rfl, rfl⟩
    · exact ⟨2, 4, _, _, _, rfl, rfl, rfl, rfl, rfl⟩

theorem handedOn_calm : Calm .fifo .none handedOn ownerA ⟨1, 2⟩ 21 where
  unpaused := by decide
  unprepared a _ x item vt env h := by
    match x, h with
    | n + 22, h => cases h
  kept := by
    unfold Pending
    decide

/-- The third call of that run, as it waits. -/
def handedOnCall : Call := ⟨ownerA, false, .dequeueBatch 2, .popping ⟨1, 2⟩ 4⟩

theorem handedOn_succeeds {x i : ℕ} {call : Call} {reply : Reply}
    (h : Succeeds .fifo .none handedOn ownerA x call i reply) : x = 21 := by
  obtain ⟨c, j, r, hev, _⟩ := h
  match x, hev with
  | 21, _ => rfl
  | n + 22, hev => cases hev

theorem handedOn_first {n : ℕ} (hn : n < 21) :
    FirstWithRoom .fifo .none handedOn ownerA n 21 ⟨1, 2⟩ handedOnCall 4
      (.batch (.popped 1 [[97]])) where
  later := hn
  succeeds := ⟨2, 3, ⟨1, 2⟩, rfl, rfl, rfl, rfl, by decide +kernel⟩
  room := by decide
  first x call' i' reply' _ hx hsucceeds := by
    rw [handedOn_succeeds hsucceeds] at hx
    exact absurd hx (lt_irrefl 21)

/-- The first call popped nothing, and the third one pops nothing either: it
returns what the second one popped. -/
theorem handedOn_not_fresh :
    OnTime .fifo .none handedOn ownerA ∧ FailsUnder .fifo .none handedOn ownerA 7 ⟨1, 2⟩ ∧
      FirstWithRoom .fifo .none handedOn ownerA 7 21 ⟨1, 2⟩ handedOnCall 4
        (.batch (.popped 1 [[97]])) ∧
      Calm .fifo .none handedOn ownerA ⟨1, 2⟩ 21 ∧
      ¬ComesBack .fifo .none handedOn ownerA ⟨1, 2⟩ 21 handedOnCall 4 (.batch (.popped 1 [[97]]))
        (fun x _ => x < 7) := by
  refine ⟨handedOn_onTime, ⟨0, _, 1, rfl, rfl, rfl, rfl, rfl⟩, handedOn_first (by decide),
    handedOn_calm, fun hback => ?_⟩
  obtain ⟨x, p, env, _, hx, hreturned, _⟩ := hback.fresh fun x j p env _ hx7 hx => by
    rcases (handedOn_pops hx.run).1 with rfl | rfl
    · omega
    · omega
  obtain ⟨rfl | rfl, rfl⟩ := handedOn_pops hx.run
  · cases hx.event
  · cases hx.event
    exact absurd hreturned (by decide)

theorem failed_call_comes_back_handedOn :
    handedOnCall.returned (.batch (.popped 1 [[97]])) = [(ackIDOf ownerA 1 1, [97])] ∧
      ∀ y p env, y < 21 → RunUnder .fifo .none handedOn ownerA ⟨1, 2⟩ y 4 p env →
        KeepsQueue .fifo .none (scriptRuns .fifo .none handedOn) y env := by
  have hfails : FailsUnder .fifo .none handedOn ownerA 13 ⟨1, 2⟩ :=
    ⟨1, _, 2, rfl, rfl, rfl, rfl, rfl⟩
  obtain ⟨_, _, hback, _⟩ := (failed_call_comes_back .fifo .none handedOn ownerA handedOn_onTime
    hfails).2 21 _ _ _ (handedOn_first (by decide)) handedOn_calm
  exact hback.popped 12 2 ⟨⟨ownerA, 1, 300 * second, 30 * second, false⟩, .batch 2 2⟩
    (.plain 1 fun _ => 0) (by decide) (by decide) ⟨rfl, rfl, rfl, rfl⟩ (by decide)

end Redisq.Model
