import Mathlib.Tactic.Linarith
import Redisq.Verified.Deadlines

/-!
# An object that sweeps is alive

What an object's last sweep leaves behind keeps it from being taken for dead:
a heartbeat at least `heartbeatAhead` ahead, and a mark that is 0 or set since
(`Liveness.Fresh`).  Every script keeps that, whoever runs it, so an object
whose sweeps are less than the presence grace apart is never taken for dead
(`sweeping_object_stays_alive`).
-/

namespace Redisq.Model

/-- How far ahead a new heartbeat is at least: the sum of the clock and
`minHeartbeat` is rounded, by half a second at most. -/
def heartbeatAhead : Time := 9 * second / 2

theorem add_heartbeatAhead_le (env : Env) {hbt : Time} (h : minHeartbeat ≤ hbt) :
    env.now + heartbeatAhead ≤ later env hbt := by
  have hnow := env.now_le
  have hnonneg := env.now_nonneg
  have hnear := (nearestDouble_near (x := env.now + minHeartbeat)
    (add_nonneg hnonneg (by decide))).1
  have hmono : nearestDouble (env.now + minHeartbeat) ≤ later env hbt := later_mono env h
  norm_num [minHeartbeat, heartbeatAhead, second] at hnow hnear hmono ⊢
  linarith

theorem lt_later (env : Env) {hbt : Time} (h : minHeartbeat ≤ hbt) : env.now < later env hbt :=
  (lt_add_of_pos_right _ (by decide)).trans_le (add_heartbeatAhead_le env h)

namespace Liveness

/-- An owner's heartbeat and mark are no older than a sweep of its own at
time `t` leaves them, and it has no mark without a heartbeat. -/
structure Fresh (o : Bytes) (t : Time) (l : Liveness) : Prop where
  heartbeat : ∀ h, l.heartbeats.score o = some h → t + heartbeatAhead ≤ h
  mark : ∀ mark, l.presence.score o = some mark → mark = 0 ∨ t ≤ mark
  seen : (l.presence.score o).isSome = true → (l.heartbeats.score o).isSome = true

variable {env : Env} {l : Liveness} {o sweeper : Bytes} {hbt t : Time}

theorem Fresh.mono {t' : Time} (h : l.Fresh o t) (ht : t' ≤ t) : l.Fresh o t' where
  heartbeat h' hh' := (add_le_add_left ht _).trans (h.heartbeat h' hh')
  mark mark hmark := (h.mark mark hmark).imp id ht.trans
  seen := h.seen

/-- An owner that no script has met. -/
def Unmet (o : Bytes) (l : Liveness) : Prop :=
  l.heartbeats.score o = none ∧ l.presence.score o = none

theorem Unmet.fresh (h : l.Unmet o) (t : Time) : l.Fresh o t where
  heartbeat h' hh' := by rw [h.1] at hh'; cases hh'
  mark mark hmark := by rw [h.2] at hmark; cases hmark
  seen hseen := by rw [h.2] at hseen; cases hseen

/-- What counts for one owner. -/
theorem Fresh.congr {l' : Liveness} (h : l.Fresh o t)
    (hheart : l'.heartbeats.score o = l.heartbeats.score o)
    (hmark : l'.presence.score o = l.presence.score o) : l'.Fresh o t where
  heartbeat h' hh' := h.heartbeat h' (hheart ▸ hh')
  mark mark hmark' := h.mark mark (hmark ▸ hmark')
  seen hseen := by rw [hheart]; rw [hmark] at hseen; exact h.seen hseen

/-! ## Before the dead are looked for -/

/-- A too long gap moves the heartbeat back, and the mark unless it is 0. -/
theorem Fresh.prepared_to {t' : Time} (h : l.Fresh o t) (hne : o ≠ sweeper)
    (ht : t' ≤ t + l.skipped env)
    (hmoved : ∀ mark, mark = 0 ∨ t ≤ mark → (if 0 < mark then mark + l.skipped env else mark) = 0 ∨
      t' ≤ if 0 < mark then mark + l.skipped env else mark) :
    (l.prepared env sweeper hbt).Fresh o t' := by
  obtain ⟨hheart, hmark⟩ := score_prepared_of_ne (l := l) hne
  constructor
  · intro h' hh'
    rw [hheart] at hh'
    obtain ⟨h₀, hh₀, rfl⟩ := Option.map_eq_some_iff.mp hh'
    have := h.heartbeat h₀ hh₀
    linarith
  · intro mark hm
    rw [hmark] at hm
    obtain ⟨mark₀, hm₀, rfl⟩ := Option.map_eq_some_iff.mp hm
    exact hmoved mark₀ (h.mark mark₀ hm₀)
  · intro hseen
    rw [hheart, Option.isSome_map]
    rw [hmark, Option.isSome_map] at hseen
    exact h.seen hseen

/-- So the owner stays as fresh. -/
theorem Fresh.prepared_of_ne (h : l.Fresh o t) (hne : o ≠ sweeper) :
    (l.prepared env sweeper hbt).Fresh o t := by
  have hskip := l.skipped_nonneg env
  apply h.prepared_to hne (by linarith)
  rintro mark (rfl | hle)
  · exact Or.inl (if_neg (lt_irrefl 0))
  · apply Or.inr
    split <;> linarith

/-- Its own sweep renews both. -/
theorem Fresh.prepared_self (h : l.Fresh o t) (hhbt : minHeartbeat ≤ hbt) :
    (l.prepared env o hbt).Fresh o env.now ∧
      ∀ mark, (l.prepared env o hbt).presence.score o = some mark → mark = 0 := by
  have hpos : 0 < hbt := (by decide : (0 : Time) < minHeartbeat).trans_le hhbt
  obtain ⟨hheart, hmarkSome, hmarkNone⟩ :=
    score_renewed_self (l := (l.shifted env).clocked env) (o := o) env hpos
  have hseen : ((l.shifted env).presence.score o).isSome = true →
      ((l.shifted env).heartbeats.score o).isSome = true := by
    rw [(score_shifted env l o).1, (score_shifted env l o).2, Option.isSome_map,
      Option.isSome_map]
    exact h.seen
  rw [clocked_heartbeats] at hheart hmarkSome hmarkNone
  rw [clocked_presence] at hmarkSome hmarkNone
  have hzero : ∀ mark, (l.prepared env o hbt).presence.score o = some mark → mark = 0 := by
    intro mark hm
    rw [prepared] at hm
    cases hh : (l.shifted env).heartbeats.score o with
    | none =>
        rw [hmarkNone hh] at hm
        have := hseen (by rw [hm]; rfl)
        rw [hh] at this
        cases this
    | some h' =>
        rw [hmarkSome (by rw [hh]; rfl)] at hm
        obtain ⟨_, _, rfl⟩ := Option.map_eq_some_iff.mp hm
        rfl
  refine ⟨⟨fun h' hh' => ?_, fun mark hm => Or.inl (hzero mark hm), fun hsome => ?_⟩, hzero⟩
  · rw [prepared, hheart] at hh'
    obtain ⟨_, _, rfl⟩ := Option.map_eq_some_iff.mp hh'
    exact add_heartbeatAhead_le env hhbt
  · rw [prepared, hheart, Option.isSome_map]
    cases hh : (l.shifted env).heartbeats.score o with
    | none =>
        rw [prepared, hmarkNone hh] at hsome
        rw [← hh]
        exact hseen hsome
    | some h' => rfl

/-! ## Death -/

/-- A fresh owner is not dead for the presence grace. -/
theorem Fresh.notMem_sweptDead (h : (l.prepared env sweeper hbt).Fresh o t)
    (hsoon : env.now < t + presenceGrace) : o ∉ l.sweptDead env sweeper hbt := by
  have hgrace : presenceGrace < heartbeatAhead := by decide
  intro hdead
  rcases ranOut_or_absent hdead with ⟨h', hscore, hle⟩ | ⟨_, mark, hscore, hne, hlong⟩
  · have := h.heartbeat h' hscore
    linarith
  · have := (h.mark mark hscore).resolve_left hne
    linarith

/-- Its own sweep never takes an owner for dead. -/
theorem Fresh.notMem_sweptDead_self (h : l.Fresh o t) (hhbt : minHeartbeat ≤ hbt) :
    o ∉ l.sweptDead env o hbt :=
  (h.prepared_self hhbt).1.notMem_sweptDead (by
    have : 0 < presenceGrace := by decide
    linarith)

/-! ## After a script -/

/-- A sweep keeps what it found while looking for the dead. -/
theorem Fresh.swept (h : (l.prepared env sweeper hbt).Fresh o t) (ht : t ≤ env.now) :
    (l.swept env sweeper hbt).Fresh o t := by
  by_cases hdead : o ∈ l.sweptDead env sweeper hbt
  · refine Unmet.fresh ⟨?_, ?_⟩ t <;>
      simp only [Liveness.swept, without, SortedSet.score_eraseAll, if_pos hdead]
  · obtain ⟨hheart, hmark⟩ := score_swept hdead
    rcases hmark with hsame | ⟨hsome, mark, hset, hzero⟩
    · exact h.congr hheart hsame
    · refine ⟨fun h' hh' => h.heartbeat h' (hheart ▸ hh'), fun mark' hm => ?_, fun _ => ?_⟩
      · rw [hset] at hm
        obtain rfl := Option.some.inj hm
        rcases hzero with hzero | hnow
        · exact Or.inl hzero
        · exact Or.inr (ht.trans_eq hnow.symm)
      · rw [hheart]
        exact hsome

/-- Nothing gives an owner a heartbeat or a mark before a sweep looks for the
dead. -/
theorem Unmet.prepared (h : l.Unmet o) : (l.prepared env sweeper hbt).Unmet o := by
  obtain ⟨hheart, hmark⟩ := score_shifted env l o
  rw [h.1, Option.map_none] at hheart
  rw [h.2, Option.map_none] at hmark
  have hunmet : ((l.shifted env).clocked env).Unmet o :=
    ⟨(congrArg (fun z : ZSet => z.score o) ((l.shifted env).clocked_heartbeats env)).trans hheart,
      (congrArg (fun z : ZSet => z.score o) ((l.shifted env).clocked_presence env)).trans hmark⟩
  by_cases hself : o = sweeper
  · subst hself
    rw [Liveness.prepared, Liveness.renewed, hunmet.1, if_neg (by decide)]
    exact hunmet
  · have hrenewed : (l.prepared env sweeper hbt).heartbeats.score o = _ ∧
        (l.prepared env sweeper hbt).presence.score o = _ := score_renewed_of_ne hself
    exact ⟨hrenewed.1.trans hunmet.1, hrenewed.2.trans hunmet.2⟩

/-- A sweep leaves an owner without heartbeat and mark as it is. -/
theorem Unmet.swept (h : l.Unmet o) : (l.swept env sweeper hbt).Unmet o := by
  have hprepared : (l.prepared env sweeper hbt).Unmet o := h.prepared
  obtain ⟨hheart, hmark⟩ := hprepared
  by_cases hdead : o ∈ l.sweptDead env sweeper hbt
  · constructor <;> simp only [Liveness.swept, without, SortedSet.score_eraseAll, if_pos hdead]
  · obtain ⟨hheart', hmark'⟩ := score_swept hdead
    refine ⟨hheart'.trans hheart, ?_⟩
    rcases hmark' with hsame | ⟨hsome, _⟩
    · exact hsame.trans hmark
    · rw [hheart] at hsome
      cases hsome

theorem Unmet.without (h : l.Unmet o) (owners : List Bytes) : (l.without owners).Unmet o := by
  constructor <;> rw [Liveness.without, SortedSet.score_eraseAll]
  · rw [h.1, ite_self]
  · rw [h.2, ite_self]

theorem score_without_of_ne (hne : o ≠ sweeper) :
    (l.without [sweeper]).heartbeats.score o = l.heartbeats.score o ∧
      (l.without [sweeper]).presence.score o = l.presence.score o :=
  ⟨SortedSet.score_erase_of_ne _ hne, SortedSet.score_erase_of_ne _ hne⟩

end Liveness

/-- A pop by another owner leaves a heartbeat alone. -/
theorem score_beaten_of_ne {env : Env} {a : PopArgs} {z : ZSet} {o : Bytes}
    (hne : o ≠ a.owner.name) : (beaten env a z).score o = z.score o := by
  unfold beaten
  split
  · exact SortedSet.score_insert_of_ne _ _ hne
  · rfl

/-- A pop by the owner renews it. -/
theorem score_beaten_self (env : Env) {a : PopArgs} (h : 0 < a.hbt) (z : ZSet) :
    (beaten env a z).score a.owner.name = some (later env a.hbt) := by
  rw [beaten, if_pos ((deadline_pos env).mpr h), SortedSet.score_insert_self,
    deadline_of_pos env h]

/-! ## Runs -/

/-- Moment `n` is a sweep of `o`'s own. -/
def OwnSweep (u : ℕ → Option ScriptRun) (o : Owner) (n : ℕ) (env : Env) : Prop :=
  ∃ hbt, u n = some ⟨.sweep o hbt, env⟩

/-- The clock never runs back, and `o` is an object that is not closed,
sweeps before its first pop, and has a heartbeat timeout, always of at least
`minHeartbeat`. -/
structure Beating (u : ℕ → Option ScriptRun) (o : Owner) : Prop where
  clock : ∀ i j r r', i ≤ j → u i = some r → u j = some r' → r.env.now ≤ r'.env.now
  sweepTimeout : ∀ n hbt env, u n = some ⟨.sweep o hbt, env⟩ → minHeartbeat ≤ hbt
  popTimeout : ∀ n p env, u n = some ⟨.pop p, env⟩ → p.args.owner = o →
    minHeartbeat ≤ p.args.hbt
  sweepsFirst : ∀ n p env, u n = some ⟨.pop p, env⟩ → p.args.owner = o →
    ∃ i < n, ∃ env', OwnSweep u o i env'
  unclosed : ∀ n env, u n ≠ some ⟨.release o, env⟩

section Runs

variable {k : Kind} {cj : Cjson} {u : ℕ → Option ScriptRun} {o : Owner}

/-- Names tell owners apart. -/
theorem Owner.name_ne {o o' : Owner} (h : o ≠ o') : o.name ≠ o'.name :=
  fun heq => h (Owner.ext heq)

/-- What a script run other than a sweep or pop of `o`'s own leaves. -/
theorem liveness_foreign {inv : Invocation} {env : Env} {s : Store}
    (hrelease : inv ≠ .release o) (hsweep : ∀ sweeper hbt, inv ≠ .sweep sweeper hbt)
    (hpop : ∀ p, inv = .pop p → p.args.owner ≠ o) :
    (inv.livenessAfter k env s).heartbeats.score o.name = s.liveness.heartbeats.score o.name ∧
      (inv.livenessAfter k env s).presence.score o.name =
        s.liveness.presence.score o.name := by
  cases inv with
  | pop p =>
      simp only [Invocation.livenessAfter]
      split
      · exact ⟨rfl, rfl⟩
      · exact ⟨score_beaten_of_ne (Owner.name_ne (hpop p rfl)).symm, rfl⟩
  | sweep sweeper hbt => exact absurd rfl (hsweep sweeper hbt)
  | release o' =>
      exact Liveness.score_without_of_ne (Owner.name_ne fun heq => hrelease (by rw [heq]))
  | _ => exact ⟨rfl, rfl⟩

/-- A script run that is not a sweep of its own keeps an owner fresh. -/
theorem Beating.fresh_step (h : Beating u o) {n : ℕ} {r : ScriptRun} (hr : u n = some r)
    (hown : ∀ hbt, r.inv ≠ .sweep o hbt) {t : Time} (ht : t ≤ r.env.now)
    (hfresh : (storeAt k cj u n).liveness.Fresh o.name t) :
    (storeAt k cj u (n + 1)).liveness.Fresh o.name t := by
  rw [storeAt_liveness hr, ScriptRun.after, after_liveness]
  obtain ⟨inv, env⟩ := r
  rw [← Store.evicted_liveness env] at hfresh
  by_cases hsweep : ∃ sweeper hbt, inv = .sweep sweeper hbt
  · obtain ⟨sweeper, hbt, rfl⟩ := hsweep
    have hne : o.name ≠ sweeper.name := Owner.name_ne fun heq => hown hbt (by rw [heq])
    exact (hfresh.prepared_of_ne hne).swept ht
  · by_cases hpop : ∃ p, inv = .pop p ∧ p.args.owner = o
    · obtain ⟨p, rfl, rfl⟩ := hpop
      have hhbt := h.popTimeout n p env hr rfl
      have hpos : 0 < p.args.hbt := (by decide : (0 : Time) < minHeartbeat).trans_le hhbt
      simp only [Invocation.livenessAfter]
      split
      · exact hfresh
      · have hheart := score_beaten_self env hpos
          ((storeAt k cj u n).evicted env).heartbeats
        refine ⟨fun h' hh' => ?_, hfresh.mark, fun _ => by simp only [hheart, Option.isSome_some]⟩
        obtain rfl := Option.some.inj (hheart.symm.trans hh')
        have hahead := add_heartbeatAhead_le env hhbt
        linarith
    · obtain ⟨hheart, hmark⟩ := liveness_foreign (k := k)
        (s := (storeAt k cj u n).evicted env)
        (fun heq => h.unclosed n env (by rw [hr, heq]))
        (fun sweeper hbt heq => hsweep ⟨sweeper, hbt, heq⟩)
        (fun p heq howner => hpop ⟨p, heq, howner⟩)
      exact hfresh.congr hheart hmark

/-- Its own sweep makes it fresh anew. -/
theorem Beating.own_step (h : Beating u o) {n : ℕ} {hbt : Time} {env : Env}
    (hr : u n = some ⟨.sweep o hbt, env⟩) {t : Time}
    (hfresh : (storeAt k cj u n).liveness.Fresh o.name t) :
    (storeAt k cj u (n + 1)).liveness.Fresh o.name env.now := by
  rw [storeAt_liveness hr, ScriptRun.after, after_liveness, Invocation.livenessAfter,
    Store.evicted_liveness]
  exact (hfresh.prepared_self (h.sweepTimeout n hbt env hr)).1.swept le_rfl

/-- Nothing but a pop of its own makes an owner known. -/
theorem unmet_after {inv : Invocation} {env : Env} {s : Store}
    (hunmet : s.liveness.Unmet o.name) (hpop : ∀ p, inv = .pop p → p.args.owner ≠ o) :
    (inv.livenessAfter k env s).Unmet o.name := by
  cases inv with
  | pop p =>
      simp only [Invocation.livenessAfter]
      split
      · exact hunmet
      · exact ⟨(score_beaten_of_ne (Owner.name_ne (hpop p rfl)).symm).trans hunmet.1, hunmet.2⟩
  | sweep sweeper hbt => exact hunmet.swept
  | release owner => exact hunmet.without [owner.name]
  | _ => exact hunmet

theorem unmet_step {n : ℕ} (hpop : ∀ p env, u n = some ⟨.pop p, env⟩ → p.args.owner ≠ o)
    (hunmet : (storeAt k cj u n).liveness.Unmet o.name) :
    (storeAt k cj u (n + 1)).liveness.Unmet o.name := by
  cases hr : u n with
  | none => rwa [storeAt_succ_none hr]
  | some r =>
      rw [storeAt_liveness hr, ScriptRun.after, after_liveness]
      obtain ⟨inv, env⟩ := r
      rw [← Store.evicted_liveness env] at hunmet
      exact unmet_after hunmet fun p hinv => hpop p env (hinv ▸ hr)

/-- From each of its sweeps on, an object is fresh as of that sweep; before
the first one it is unmet. -/
theorem Beating.fresh (k : Kind) (cj : Cjson) (h : Beating u o) (n : ℕ) :
    (∀ i < n, ∀ env, OwnSweep u o i env →
        (storeAt k cj u n).liveness.Fresh o.name env.now) ∧
      ((∀ i < n, ∀ env, ¬OwnSweep u o i env) → (storeAt k cj u n).liveness.Unmet o.name) := by
  induction n with
  | zero => exact ⟨fun i hi => absurd hi (Nat.not_lt_zero i), fun _ => ⟨rfl, rfl⟩⟩
  | succ n ih =>
      obtain ⟨ihFresh, ihUnmet⟩ := ih
      by_cases hown : ∃ env, OwnSweep u o n env
      · obtain ⟨env, hbt, hr⟩ := hown
        have hbefore : ∃ t, (storeAt k cj u n).liveness.Fresh o.name t := by
          by_cases hnone : ∀ i < n, ∀ env, ¬OwnSweep u o i env
          · exact ⟨0, (ihUnmet hnone).fresh 0⟩
          · push Not at hnone
            obtain ⟨i, hi, env', hown⟩ := hnone
            exact ⟨_, ihFresh i hi env' hown⟩
        obtain ⟨t, hfresh⟩ := hbefore
        refine ⟨fun i hi env' hown' => (h.own_step hr hfresh).mono ?_,
          fun hall => absurd ⟨hbt, hr⟩ (hall n (Nat.lt_succ_self n) env)⟩
        obtain ⟨hbt', hr'⟩ := hown'
        exact h.clock i n _ _ (Nat.lt_succ_iff.mp hi) hr' hr
      · have hbefore : ∀ i < n + 1, ∀ env, OwnSweep u o i env → i < n := by
          intro i hi env hi'
          rcases Nat.lt_succ_iff_lt_or_eq.mp hi with hlt | rfl
          · exact hlt
          · exact absurd ⟨env, hi'⟩ hown
        cases hr : u n with
        | none =>
            rw [storeAt_succ_none hr]
            exact ⟨fun i hi env hi' => ihFresh i (hbefore i hi env hi') env hi',
              fun hall => ihUnmet fun i hi => hall i (Nat.lt_succ_of_lt hi)⟩
        | some r =>
            have hnot : ∀ hbt, r.inv ≠ .sweep o hbt := fun hbt heq =>
              hown ⟨r.env, hbt, by rw [hr, ← heq]⟩
            refine ⟨fun i hi env hi' => ?_, fun hall => ?_⟩
            · have hlt := hbefore i hi env hi'
              obtain ⟨hbt, hu⟩ := id hi'
              exact h.fresh_step hr hnot (h.clock i n _ _ hlt.le hu hr)
                (ihFresh i hlt env hi')
            · refine unmet_step (fun p env hp howner => ?_)
                (ihUnmet fun i hi => hall i (Nat.lt_succ_of_lt hi))
              obtain ⟨i, hi, env', hi'⟩ := h.sweepsFirst n p env hp howner
              exact hall i (Nat.lt_succ_of_lt hi) env' hi'

/-- An owner without a heartbeat is not taken for dead. -/
theorem Liveness.Unmet.notMem_sweptDead {env : Env} {l : Liveness} {m sweeper : Bytes}
    {hbt : Time} (h : l.Unmet m) : m ∉ l.sweptDead env sweeper hbt := by
  have hprepared : (l.prepared env sweeper hbt).Unmet m := h.prepared
  obtain ⟨hheart, hmark⟩ := hprepared
  intro hdead
  rcases Liveness.ranOut_or_absent hdead with ⟨h', hscore, _⟩ | ⟨_, mark, hscore, _⟩
  · rw [hheart] at hscore
    cases hscore
  · rw [hmark] at hscore
    cases hscore

/-- An object that has swept has a last sweep. -/
theorem exists_lastSweep {n : ℕ} (hbegun : ∃ i < n, ∃ env, OwnSweep u o i env) :
    ∃ i < n, ∃ env, OwnSweep u o i env ∧
      ∀ j, i < j → j < n → ∀ env', ¬OwnSweep u o j env' := by
  classical
  obtain ⟨i, hi, hown⟩ := hbegun
  obtain ⟨hlt, env, hlast⟩ :=
    Nat.findGreatest_spec (P := fun j => j < n ∧ ∃ env, OwnSweep u o j env) hi.le ⟨hi, hown⟩
  refine ⟨_, hlt, env, hlast, fun j hij hjn env' hj => ?_⟩
  exact absurd (Nat.le_findGreatest (P := fun j => j < n ∧ ∃ env, OwnSweep u o j env)
    hjn.le ⟨hjn, env', hj⟩) (not_le.mpr hij)

/-- Any script run is less than the presence grace later than a sweep of an
object that keeps sweeping. -/
theorem Beating.recent (h : Beating u o)
    (hoften : ∀ i env, OwnSweep u o i env → ∃ j > i, ∃ env', OwnSweep u o j env' ∧
      env'.now < env.now + presenceGrace)
    {n : ℕ} {r : ScriptRun} (hr : u n = some r) (hbegun : ∃ i < n, ∃ env, OwnSweep u o i env) :
    ∃ i < n, ∃ env, OwnSweep u o i env ∧ r.env.now < env.now + presenceGrace := by
  obtain ⟨i, hi, env, hown, hlast⟩ := exists_lastSweep hbegun
  obtain ⟨j, hij, env', hown', hsoon⟩ := hoften i env hown
  have hnj : n ≤ j := not_lt.mp fun hjn => hlast j hij hjn env' hown'
  obtain ⟨hbt', hu'⟩ := hown'
  have hle : r.env.now ≤ env'.now := h.clock n j _ _ hnj hr hu'
  exact ⟨i, hi, env, hown, hle.trans_lt hsoon⟩

/-- An object that sweeps often enough is never taken for dead. -/
theorem Beating.notMem_sweptDead (h : Beating u o)
    (hoften : ∀ i env, OwnSweep u o i env → ∃ j > i, ∃ env', OwnSweep u o j env' ∧
      env'.now < env.now + presenceGrace)
    {n : ℕ} {sweeper : Owner} {hbt : Time} {env : Env}
    (hr : u n = some ⟨.sweep sweeper hbt, env⟩) :
    o.name ∉ (storeAt k cj u n).liveness.sweptDead env sweeper.name hbt := by
  obtain ⟨hfresh, hunmet⟩ := h.fresh k cj n
  by_cases hbegun : ∃ i < n, ∃ env, OwnSweep u o i env
  · obtain ⟨i, hi, env', hown', hsoon⟩ := h.recent hoften hr hbegun
    by_cases hself : sweeper = o
    · subst hself
      exact (hfresh i hi env' hown').notMem_sweptDead_self (h.sweepTimeout n hbt env hr)
    · exact ((hfresh i hi env' hown').prepared_of_ne
        (Owner.name_ne (Ne.symm hself))).notMem_sweptDead hsoon
  · push Not at hbegun
    exact (hunmet fun i hi env hown => hbegun i hi env hown).notMem_sweptDead

/-- Before a sweep looks for the dead, it drops no heartbeat but its own, and
that only without a heartbeat timeout. -/
theorem Liveness.isSome_prepared {env : Env} {l : Liveness} {m sweeper : Bytes} {hbt : Time}
    (h : m = sweeper → 0 < hbt) :
    ((l.prepared env sweeper hbt).heartbeats.score m).isSome =
      (l.heartbeats.score m).isSome := by
  by_cases hself : m = sweeper
  · subst hself
    have hheart := (score_renewed_self (l := (l.shifted env).clocked env)
      (o := m) env (h rfl)).1
    rw [prepared, hheart, Option.isSome_map, clocked_heartbeats, (score_shifted env l m).1,
      Option.isSome_map]
  · rw [(score_prepared_of_ne hself).1, Option.isSome_map]

/-- Nothing removes the heartbeat of an object that keeps sweeping. -/
theorem Beating.heartbeat_kept (h : Beating u o)
    (hoften : ∀ i env, OwnSweep u o i env → ∃ j > i, ∃ env', OwnSweep u o j env' ∧
      env'.now < env.now + presenceGrace)
    (n : ℕ) (hsome : ((storeAt k cj u n).liveness.heartbeats.score o.name).isSome = true) :
    ((storeAt k cj u (n + 1)).liveness.heartbeats.score o.name).isSome = true := by
  cases hr : u n with
  | none => rw [storeAt_succ_none hr]; exact hsome
  | some r =>
      rw [storeAt_liveness hr, ScriptRun.after, after_liveness]
      obtain ⟨inv, env⟩ := r
      by_cases hsweep : ∃ sweeper hbt, inv = .sweep sweeper hbt
      · obtain ⟨sweeper, hbt, rfl⟩ := hsweep
        have hpos : o.name = sweeper.name → 0 < hbt := fun heq => by
          obtain rfl := Owner.ext heq
          exact (by decide : (0 : Time) < minHeartbeat).trans_le (h.sweepTimeout n hbt env hr)
        rw [Invocation.livenessAfter, Store.evicted_liveness,
          (Liveness.score_swept (h.notMem_sweptDead hoften hr)).1,
          Liveness.isSome_prepared hpos]
        exact hsome
      · by_cases hpop : ∃ p, inv = .pop p ∧ p.args.owner = o
        · obtain ⟨p, rfl, rfl⟩ := hpop
          have hpos : 0 < p.args.hbt :=
            (by decide : (0 : Time) < minHeartbeat).trans_le (h.popTimeout n p env hr rfl)
          simp only [Invocation.livenessAfter]
          split
          · rw [Store.evicted_liveness]
            exact hsome
          · simp only [score_beaten_self env hpos, Option.isSome_some]
        · obtain ⟨hheart, _⟩ := liveness_foreign (k := k)
            (s := (storeAt k cj u n).evicted env)
            (fun heq => h.unclosed n env (by rw [hr, heq]))
            (fun sweeper hbt heq => hsweep ⟨sweeper, hbt, heq⟩)
            (fun p heq howner => hpop ⟨p, heq, howner⟩)
          rw [hheart, Store.evicted_liveness]
          exact hsome

/-- An object that is not closed, has a heartbeat timeout of at least
`minHeartbeat` and sweeps from before its first pop, each time less than the
presence grace of 2.5 s later, is alive to everyone, whatever else runs: no
sweep takes it for dead, its heartbeat stays, and a sweep moves none of its
entries before its visibility deadline. -/
theorem sweeping_object_stays_alive (k : Kind) (cj : Cjson) (h : Beating u o)
    (hoften : ∀ i env, OwnSweep u o i env → ∃ j > i, ∃ env', OwnSweep u o j env' ∧
      env'.now < env.now + presenceGrace) :
    (∀ n sweeper hbt env, u n = some ⟨.sweep sweeper hbt, env⟩ →
      o.name ∉ (storeAt k cj u n).liveness.sweptDead env sweeper.name hbt) ∧
    (∀ n, ((storeAt k cj u n).liveness.heartbeats.score o.name).isSome = true →
      ((storeAt k cj u (n + 1)).liveness.heartbeats.score o.name).isSome = true) ∧
    ∀ n sweeper hbt env a, u n = some ⟨.sweep sweeper hbt, env⟩ → ownerOf a = o.name →
      MovesBack k cj u n ⟨.sweep sweeper hbt, env⟩ a →
      ∃ d, (storeAt k cj u n).timeouts.score a = some d ∧ d ≤ env.now := by
  refine ⟨fun n sweeper hbt env hr => h.notMem_sweptDead hoften hr,
    fun n => h.heartbeat_kept hoften n, fun n sweeper hbt env a hr howner hmoves => ?_⟩
  rcases List.mem_append.mp hmoves.2.2 with hover | hdead
  · rw [← Store.evicted_timeouts env]
    exact mem_overdue.mp hover
  · have hmem := of_decide_eq_true (mem_pendingIDs hdead).2
    rw [howner, Store.evicted_liveness] at hmem
    exact absurd hmem (h.notMem_sweptDead hoften hr)

end Runs

/-- An object that pops an item and sweeps every two seconds, and another
that sweeps in between and sees nobody.  The clock stops in the end. -/
def tended (n : ℕ) : Option ScriptRun :=
  some
    { inv :=
        match n with
        | 0 => .sweep ownerA minHeartbeat
        | 1 => .push ⟨[97], 0, 0, false, none⟩
        | 2 => .pop ⟨⟨ownerA, 1, 60 * second, minHeartbeat, false⟩, .one⟩
        | n + 3 => .sweep (if n % 2 = 0 then ownerB else ownerA) minHeartbeat
      env := .plain (min (n - 2) (2 ^ 40) * 1000000) fun _ => 0 }

theorem tended_now {n : ℕ} {r : ScriptRun} (h : tended n = some r) :
    r.env.now = (min (n - 2) (2 ^ 40) : ℕ) * second := by
  obtain rfl := Option.some.inj h
  exact Env.plain_seconds (by omega) _

theorem ownSweep_tended {n : ℕ} (hn : n % 2 = 0) (hne : n ≠ 2) :
    OwnSweep tended ownerA n (.plain (min (n - 2) (2 ^ 40) * 1000000) fun _ => 0) := by
  refine ⟨minHeartbeat, ?_⟩
  match n with
  | 0 => rfl
  | 1 => omega
  | 2 => omega
  | n + 3 =>
      have hodd : ¬n % 2 = 0 := by omega
      simp only [tended, if_neg hodd]

theorem tended_beating : Beating tended ownerA where
  clock i j r r' hij hr hr' := by
    rw [tended_now hr, tended_now hr']
    exact mul_le_mul_of_nonneg_right (Int.ofNat_le.mpr (by omega)) (by decide)
  sweepTimeout n hbt env hr := by
    match n with
    | 0 | 1 | 2 | n + 3 => simp [tended] at hr <;> simp [← hr.1]
  popTimeout n p env hr howner := by
    match n with
    | 0 | 1 | 2 | n + 3 => simp [tended] at hr <;> simp [← hr.1]
  sweepsFirst n p env hr howner := by
    match n with
    | 0 | 1 | n + 3 => simp [tended] at hr
    | 2 => exact ⟨0, by omega, _, ownSweep_tended rfl (by omega)⟩
  unclosed n env hr := by
    match n with
    | 0 | 1 | 2 | n + 3 => simp [tended] at hr

/-- Its own sweeps are the even moments but one. -/
theorem OwnSweep.tended {n : ℕ} {env : Env} (h : OwnSweep tended ownerA n env) :
    n % 2 = 0 ∧ n ≠ 2 ∧ env.now = (min (n - 2) (2 ^ 40) : ℕ) * second := by
  obtain ⟨hbt, hu⟩ := h
  refine ⟨?_, ?_, tended_now hu⟩
  · rcases n with _ | _ | _ | n
    · rfl
    · simp [Model.tended] at hu
    · simp [Model.tended] at hu
    · by_cases hn : n % 2 = 0
      · simp [Model.tended, hn, ownerA, ownerB] at hu
      · omega
  · rintro rfl
    simp [Model.tended] at hu

theorem tended_often (i : ℕ) (env : Env) (h : OwnSweep tended ownerA i env) :
    ∃ j > i, ∃ env', OwnSweep tended ownerA j env' ∧
      env'.now < env.now + presenceGrace := by
  obtain ⟨heven, hne, hnow⟩ := h.tended
  have hsoon : ∀ j, min (j - 2) (2 ^ 40) ≤ min (i - 2) (2 ^ 40) + 2 → ∀ env',
      OwnSweep tended ownerA j env' → env'.now < env.now + presenceGrace := by
    intro j hj env' hj'
    have hle : ((min (j - 2) (2 ^ 40) : ℕ) : ℤ) ≤ (min (i - 2) (2 ^ 40) : ℕ) + 2 := by
      exact_mod_cast hj
    rw [hnow, hj'.tended.2.2]
    calc ((min (j - 2) (2 ^ 40) : ℕ) : ℤ) * second
        ≤ ((min (i - 2) (2 ^ 40) : ℕ) + 2) * second :=
          mul_le_mul_of_nonneg_right hle (by decide)
      _ = (min (i - 2) (2 ^ 40) : ℕ) * second + 2 * second := add_mul _ _ _
      _ < (min (i - 2) (2 ^ 40) : ℕ) * second + presenceGrace :=
          Int.add_lt_add_left (by decide) _
  by_cases hzero : i = 0
  · exact ⟨4, by omega, _, ownSweep_tended rfl (by omega),
      hsoon 4 (by omega) _ (ownSweep_tended rfl (by omega))⟩
  · exact ⟨i + 2, by omega, _, ownSweep_tended (by omega) (by omega),
      hsoon (i + 2) (by omega) _ (ownSweep_tended (by omega) (by omega))⟩

/-- The second sweep of the other object, which sees no subscriber, does not
take the first for dead. -/
theorem sweeping_object_stays_alive_tended :
    ownerA.name ∉ (storeAt .fifo .none tended 5).liveness.sweptDead
      (.plain 3000000 fun _ => 0) ownerB.name minHeartbeat :=
  (sweeping_object_stays_alive .fifo .none tended_beating tended_often).1 5 ownerB minHeartbeat _
    rfl

end Redisq.Model
