import Redisq.Model.Requeue

/-!
# The sweep and the release

`tickBody`, which every queue object runs once a second, and `releaseBody`,
which it runs at Close.

A sweep reads and writes the heartbeats, their clock and the presence marks,
and moves pending entries back to the queue.  Nothing it reads of the former
depends on the latter, so its effect falls into two parts (`sweep_exec`):
`Liveness.swept`, which also says whom it takes for dead, and a requeue of
the overdue entries and then of the dead owners'.
-/

namespace Redisq.Model

/-! ## Constants -/

/-- `minHeartbeat`: the shortest heartbeat timeout that can be set. -/
def minHeartbeat : Time := 5 * second

/-- `sweepGap`: the longest gap between two sweeps that counts as normal. -/
def sweepGap : Time := 2 * second

/-- `presenceGrace`. -/
def presenceGrace : Time := 5 * second / 2

/-- The least step of the clock at which a sweep counts subscribers: 0.5 s. -/
def tickStep : Time := second / 2

/-! ## The sweep -/

/-- Heartbeats and marks move on by `gap`. -/
def shift (gap : Time) : Redis Unit := do
  let owners ← zrange .heartbeats 0 (-1)
  Script.each owners fun m => zincrby .heartbeats gap m
  let marked ← zrangeByScore .presence (fun mark => 0 < mark) none
  Script.each marked fun m => zincrby .presence gap m

/-- Whether the clock moves on. -/
def ticked (env : Env) (last : Option Time) : Bool :=
  last.all fun last => tickStep ≤ env.now - last ∨ env.now < last

/-- A gap that is too long does not count. -/
def skipGap (env : Env) (last : Option Time) : Redis Unit :=
  match last with
  | some last => if sweepGap < env.now - last then shift (env.now - last) else pure ()
  | none => pure ()

/-- The clock moves on, if it is time. -/
def moveClock (env : Env) (last : Option Time) : Redis Unit :=
  if ticked env last then setClock env.now else pure ()

/-- An owner is forgotten. -/
def dropOwner (m : Bytes) : Redis Unit := do
  zrem .heartbeats m
  zrem .presence m

/-- The sweep's own heartbeat, if there is one: renewed, or dropped when the
heartbeat timeout is 0. -/
def renew (env : Env) (owner : Bytes) (hbt : Time) (own : Option Time) : Redis Unit :=
  if own.isSome then
    if 0 < hbt then do
      zadd .heartbeats (later env hbt) owner
      zaddXX .presence 0 owner
    else dropOwner owner
  else pure ()

/-- The subscriber count of one owner: whether it has been gone too long. -/
def look (env : Env) (m : Bytes) : Redis Bool := do
  let mark ← zscore .presence m
  if 0 < env.subscribers m then
    if mark ≠ some 0 then
      zadd .presence 0 m
      return false
    else return false
  else if mark = some 0 then
    zadd .presence env.now m
    return false
  else return mark.any fun mark => presenceGrace ≤ env.now - mark

/-- The owners of a list who have been gone too long. -/
def lookAround (env : Env) : List Bytes → Redis (List Bytes)
  | [] => return []
  | m :: rest => do
      let gone ← look env m
      let others ← lookAround env rest
      return if gone then m :: others else others

/-- The owners taken for dead: none before there is a clock. -/
def findDead (env : Env) (last : Option Time) : Redis (List Bytes) :=
  if last.isSome then do
    let dead ← zrangeByScore .heartbeats (fun h => h ≤ env.now) (some 100)
    if ticked env last then
      let live ← zrangeByScore .heartbeats (fun h => env.now ≤ h) (some 1000)
      let gone ← lookAround env live
      return dead ++ gone
    else return dead
  else return []

/-- The pending IDs `p` accepts, in byte order. -/
def pendingIDs (env : Env) (p : Bytes → Bool) : Redis (List Bytes) := do
  let ids ← hkeys .nacked env
  return (ids.filter p).insertionSort (· ≤ ·)

/-- Dead owners' entries go back to the queue; then the owners go, each once.
Lua's `pairs` lists them in an order of its own: here as they were found. -/
def reap (k : Kind) (cj : Cjson) (env : Env) (dead : List Bytes) : Redis ℕ :=
  if dead = [] then return 0
  else do
    let ids ← pendingIDs env fun id => ownerOf id ∈ dead
    let n ← requeueAll (move k cj) ids
    Script.each dead.dedup dropOwner
    return n

/-- The sweep's reply: the entries moved, whether its own heartbeat was
missing or had run out, and whether the queue is paused. -/
structure SweepReply where
  moved : ℕ
  lapsed : Bool
  paused : Bool
deriving DecidableEq

/-- The first part of `tickBody`: the clock and the own heartbeat as it finds
them. -/
def sweepSelf (env : Env) (owner : Bytes) (hbt : Time) : Redis (Option Time × Option Time) := do
  let last ← getClock
  skipGap env last
  moveClock env last
  let own ← zscore .heartbeats owner
  renew env owner hbt own
  return (last, own)

/-- `tickBody`. -/
def sweep (k : Kind) (cj : Cjson) (env : Env) (owner : Bytes) (hbt : Time) :
    Redis SweepReply := do
  let paused ← existsPaused
  let (last, own) ← sweepSelf env owner hbt
  let overdue ← zrangeByScore .timeouts (fun d => d ≤ env.now) none
  let n ← requeueAll (move k cj) overdue
  let dead ← findDead env last
  let m ← reap k cj env dead
  return ⟨n + m, !own.any fun own => decide (env.now ≤ own), paused⟩

/-! ## The release -/

/-- `releaseBody`: how many entries it moved. -/
def release (k : Kind) (cj : Cjson) (env : Env) (owner : Bytes) : Redis ℕ := do
  let ids ← pendingIDs env (ownedBy owner)
  let n ← requeueAll (move k cj) ids
  dropOwner owner
  return n

/-! ## Effect on the heartbeats -/

/-- The heartbeats, their clock and the presence marks. -/
structure Liveness where
  heartbeats : ZSet
  clock : Option Time
  presence : ZSet

/-- A queue's. -/
def Store.liveness (s : Store) : Liveness :=
  ⟨s.heartbeats, s.clock, s.presence⟩

/-- A queue with others. -/
def Store.withLiveness (s : Store) (l : Liveness) : Store :=
  { s with heartbeats := l.heartbeats, clock := l.clock, presence := l.presence }

@[simp] theorem Store.liveness_withLiveness (s : Store) (l : Liveness) :
    (s.withLiveness l).liveness = l := rfl

@[simp] theorem Store.withLiveness_withLiveness (s : Store) (l l' : Liveness) :
    (s.withLiveness l).withLiveness l' = s.withLiveness l' := rfl

/-- Members moved on by `gap`. -/
def movedOn (gap : Time) (ms : List Bytes) (z : ZSet) : ZSet :=
  ms.foldl (fun z m => z.insert m ((z.score m).getD 0 + gap)) z

namespace Liveness

/-- The gap since the clock, if it is too long. -/
def gap (env : Env) (l : Liveness) : Option Time :=
  (l.clock.map fun last => env.now - last).filter fun gap => sweepGap < gap

/-- A too long gap does not count. -/
def shifted (env : Env) (l : Liveness) : Liveness :=
  match l.gap env with
  | none => l
  | some gap =>
      { l with
        heartbeats := movedOn gap l.heartbeats.members l.heartbeats
        presence := movedOn gap
          (l.presence.filter fun e => decide (0 < SortedSet.rank e)).members l.presence }

/-- The clock after a sweep. -/
def clocked (env : Env) (l : Liveness) : Liveness :=
  if ticked env l.clock then { l with clock := some env.now } else l

/-- The sweep's own heartbeat and mark. -/
def renewed (env : Env) (owner : Bytes) (hbt : Time) (l : Liveness) : Liveness :=
  if (l.heartbeats.score owner).isSome then
    if 0 < hbt then
      { l with
        heartbeats := l.heartbeats.insert owner (later env hbt)
        presence :=
          if (l.presence.score owner).isSome then l.presence.insert owner 0 else l.presence }
    else
      { l with
        heartbeats := l.heartbeats.erase owner
        presence := l.presence.erase owner }
  else l

/-- The first stages of a sweep, before it looks for the dead. -/
def prepared (env : Env) (owner : Bytes) (hbt : Time) (l : Liveness) : Liveness :=
  ((l.shifted env).clocked env).renewed env owner hbt

/-- An owner's mark after a count of its subscribers. -/
def looked (env : Env) (l : Liveness) (m : Bytes) : Liveness :=
  if 0 < env.subscribers m then
    if l.presence.score m ≠ some 0 then { l with presence := l.presence.insert m 0 } else l
  else if l.presence.score m = some 0 then
    { l with presence := l.presence.insert m env.now }
  else l

/-- Whether a count of its subscribers shows an owner gone too long. -/
def gone (env : Env) (l : Liveness) (m : Bytes) : Bool :=
  env.subscribers m = 0 ∧ l.presence.score m ≠ some 0 ∧
    (l.presence.score m).any (fun mark => presenceGrace ≤ env.now - mark) = true

/-- The owners whose heartbeat ran out, as many as a sweep takes. -/
def lapsed (env : Env) (l : Liveness) : List Bytes :=
  (l.heartbeats.filter fun e => decide (SortedSet.rank e ≤ env.now)).members.take 100

/-- The owners with a live heartbeat, as many as a sweep counts. -/
def live (env : Env) (l : Liveness) : List Bytes :=
  (l.heartbeats.filter fun e => decide (env.now ≤ SortedSet.rank e)).members.take 1000

/-- Whom a sweep takes for dead: `l` is as it was before, and `p` prepared. -/
def dead (env : Env) (l p : Liveness) : List Bytes :=
  if l.clock.isSome then
    p.lapsed env ++ if ticked env l.clock then (p.live env).filter (p.gone env) else []
  else []

/-- The marks after the counts. -/
def counted (env : Env) (l p : Liveness) : Liveness :=
  if l.clock.isSome ∧ ticked env l.clock then (p.live env).foldl (looked env) p else p

/-- Without some owners. -/
def without (l : Liveness) (owners : List Bytes) : Liveness :=
  { l with
    heartbeats := owners.foldl SortedSet.erase l.heartbeats
    presence := owners.foldl SortedSet.erase l.presence }

/-- Whom a sweep by `owner` takes for dead. -/
def sweptDead (env : Env) (owner : Bytes) (hbt : Time) (l : Liveness) : List Bytes :=
  l.dead env (l.prepared env owner hbt)

/-- What a sweep by `owner` leaves. -/
def swept (env : Env) (owner : Bytes) (hbt : Time) (l : Liveness) : Liveness :=
  (l.counted env (l.prepared env owner hbt)).without (l.sweptDead env owner hbt)

end Liveness

theorem exec_shift (gap : Time) (s : Store) :
    (shift gap).exec s =
      ((), { s with
        heartbeats := movedOn gap s.heartbeats.members s.heartbeats
        presence := movedOn gap
          (s.presence.filter fun e => decide (0 < SortedSet.rank e)).members s.presence }) := by
  have hall : slice s.heartbeats.members 0 (-1) = s.heartbeats.members := by simp [slice]
  simp only [shift, zrange, zrangeByScore, zincrby, ↓Script.exec_bind, exec_read,
    exec_each_write, Ref.heartbeats_get, hall]
  rfl

theorem exec_skipGap (env : Env) (s : Store) :
    (skipGap env s.clock).exec s = ((), s.withLiveness (s.liveness.shifted env)) := by
  cases hclock : s.clock with
  | none =>
      simp only [skipGap, Script.exec_pure, Liveness.shifted, Liveness.gap, Store.liveness, hclock,
        Option.map_none, Option.filter_none]
      rw [Store.withLiveness, ← hclock]
  | some last =>
      by_cases hgap : sweepGap < env.now - last
      · simp only [skipGap, hgap, if_true, exec_shift, Liveness.shifted, Liveness.gap,
          Store.liveness, hclock, Option.map_some, Option.filter_some, decide_true]
        rw [Store.withLiveness, ← hclock]
      · simp only [skipGap, hgap, if_false, Script.exec_pure, Liveness.shifted, Liveness.gap,
          Store.liveness, hclock, Option.map_some, Option.filter_some, decide_false,
          Bool.false_eq_true]
        rw [Store.withLiveness, ← hclock]

theorem exec_moveClock (env : Env) (s : Store) :
    (moveClock env s.clock).exec s = ((), s.withLiveness (s.liveness.clocked env)) := by
  by_cases htick : ticked env s.clock = true <;>
    simp only [moveClock, Liveness.clocked, Store.liveness, htick, if_true, if_false,
      Bool.false_eq_true] <;>
    rfl

theorem exec_renew (env : Env) (owner : Bytes) (hbt : Time) (s : Store) :
    (renew env owner hbt (s.heartbeats.score owner)).exec s =
      ((), s.withLiveness (s.liveness.renewed env owner hbt)) := by
  unfold renew Liveness.renewed
  by_cases hown : (s.heartbeats.score owner).isSome = true
  · have hown' : (s.liveness.heartbeats.score owner).isSome = true := hown
    rw [if_pos hown, if_pos hown']
    by_cases hhbt : 0 < hbt
    · rw [if_pos hhbt, if_pos hhbt]
      generalize later env hbt = score
      rfl
    · rw [if_neg hhbt, if_neg hhbt]
      rfl
  · have hown' : ¬(s.liveness.heartbeats.score owner).isSome = true := hown
    rw [if_neg hown, if_neg hown']
    rfl

theorem exec_look (env : Env) (m : Bytes) (s : Store) :
    (look env m).exec s =
      (s.liveness.gone env m, s.withLiveness (s.liveness.looked env m)) := by
  by_cases hsubs : 0 < env.subscribers m <;>
    by_cases hmark : s.presence.score m = some 0 <;>
    simp [look, Liveness.looked, Liveness.gone, Store.liveness, Store.withLiveness, hsubs, hmark]
  · exact ⟨fun hzero => absurd hzero (Nat.pos_iff_ne_zero.mp hsubs), rfl⟩
  · rfl
  · exact fun _ => Nat.eq_zero_of_not_pos hsubs

/-- A count of one owner says nothing of another. -/
theorem Liveness.gone_looked (env : Env) (l : Liveness) {m m' : Bytes} (h : m' ≠ m) :
    (l.looked env m).gone env m' = l.gone env m' := by
  have hscore : (l.looked env m).presence.score m' = l.presence.score m' := by
    unfold Liveness.looked
    split
    · split
      · exact SortedSet.score_insert_of_ne _ _ h
      · rfl
    · split
      · exact SortedSet.score_insert_of_ne _ _ h
      · rfl
  simp only [Liveness.gone, hscore]

theorem exec_lookAround (env : Env) {ms : List Bytes} (hms : ms.Nodup) (s : Store) :
    (lookAround env ms).exec s =
      (ms.filter (s.liveness.gone env),
        s.withLiveness (ms.foldl (Liveness.looked env) s.liveness)) := by
  induction ms generalizing s with
  | nil => rfl
  | cons m rest ih =>
      obtain ⟨hm, hrest⟩ := List.nodup_cons.mp hms
      have hfilter : rest.filter ((s.liveness.looked env m).gone env) =
          rest.filter (s.liveness.gone env) :=
        List.filter_congr fun m' hm' =>
          s.liveness.gone_looked env fun heq => hm (heq ▸ hm')
      simp only [lookAround, ↓Script.exec_bind, exec_look, ih hrest, Script.exec_pure,
        Store.liveness_withLiveness, hfilter, List.foldl_cons, List.filter_cons]
      rfl

theorem SortedSet.members_filter_nodup (z : ZSet) (p : ℤ ×ₗ Bytes → Bool) (n : ℕ) :
    ((z.filter p).members.take n).Nodup :=
  (z.filter p).distinct.sublist (List.take_sublist n _)

theorem exec_findDead (env : Env) (l : Liveness) (s : Store) :
    (findDead env l.clock).exec s =
      (l.dead env s.liveness, s.withLiveness (l.counted env s.liveness)) := by
  by_cases hsome : l.clock.isSome = true <;> by_cases htick : ticked env l.clock = true
  · simp only [findDead, zrangeByScore, hsome, htick, ↓Script.exec_bind, exec_read,
      Ref.heartbeats_get, if_true, Script.exec_pure, Liveness.dead, Liveness.counted, and_self,
      exec_lookAround env (SortedSet.members_filter_nodup s.heartbeats _ 1000) s]
    rfl
  · simp only [findDead, zrangeByScore, hsome, htick, ↓Script.exec_bind, exec_read, if_true,
      Bool.false_eq_true, if_false, Script.exec_pure, Liveness.dead, Liveness.counted, and_false,
      List.append_nil]
    rfl
  · simp only [findDead, hsome, Bool.false_eq_true, if_false, Script.exec_pure, Liveness.dead,
      Liveness.counted, false_and]
    rfl
  · simp only [findDead, hsome, Bool.false_eq_true, if_false, Script.exec_pure, Liveness.dead,
      Liveness.counted, false_and]
    rfl

/-! ## Effect -/

/-- What `pendingIDs` replies. -/
def Store.pendingIDs (env : Env) (p : Bytes → Bool) (s : Store) : List Bytes :=
  ((env.hkeys s.nacked.keys).filter p).insertionSort (· ≤ ·)

/-- A store after its overdue entries were moved. -/
def Store.caughtUp (k : Kind) (cj : Cjson) (env : Env) (s : Store) : Store :=
  (s.overdue env).foldl (Store.moved k cj) s

/-- A store after the entries of dead owners were moved. -/
def Store.reaped (k : Kind) (cj : Cjson) (env : Env) (dead : List Bytes) (s : Store) : Store :=
  (s.pendingIDs env fun id => ownerOf id ∈ dead).foldl (Store.moved k cj) s

/-- A store after a sweep. -/
def Store.swept (k : Kind) (cj : Cjson) (env : Env) (owner : Bytes) (hbt : Time) (s : Store) :
    Store :=
  ((s.caughtUp k cj env).reaped k cj env (s.liveness.sweptDead env owner hbt)).withLiveness
    (s.liveness.swept env owner hbt)

/-- The IDs a sweep goes through. -/
def Store.sweptIDs (k : Kind) (cj : Cjson) (env : Env) (owner : Bytes) (hbt : Time)
    (s : Store) : List Bytes :=
  s.overdue env ++ (s.caughtUp k cj env).pendingIDs env fun id =>
    ownerOf id ∈ s.liveness.sweptDead env owner hbt

/-- A sweep is one requeue, next to its effect on the heartbeats. -/
theorem Store.swept_eq (k : Kind) (cj : Cjson) (env : Env) (owner : Bytes) (hbt : Time)
    (s : Store) :
    s.swept k cj env owner hbt =
      ((s.sweptIDs k cj env owner hbt).foldl (Store.moved k cj) s).withLiveness
        (s.liveness.swept env owner hbt) := by
  rw [Store.sweptIDs, List.foldl_append]
  rfl

/-- A store after a release. -/
def Store.released (k : Kind) (cj : Cjson) (env : Env) (owner : Bytes) (s : Store) : Store :=
  ((s.pendingIDs env (ownedBy owner)).foldl (Store.moved k cj) s).withLiveness
    (s.liveness.without [owner])

theorem Store.moved_withLiveness (k : Kind) (cj : Cjson) (s : Store) (l : Liveness)
    (id : Bytes) : (s.withLiveness l).moved k cj id = (s.moved k cj id).withLiveness l := by
  have hnacked : (s.withLiveness l).nacked = s.nacked := rfl
  simp only [Store.moved, hnacked]
  split <;> cases k <;> rfl

theorem Store.movedAll_withLiveness (k : Kind) (cj : Cjson) (s : Store) (l : Liveness)
    (ids : List Bytes) :
    ids.foldl (Store.moved k cj) (s.withLiveness l) =
      (ids.foldl (Store.moved k cj) s).withLiveness l := by
  induction ids generalizing s with
  | nil => rfl
  | cons id rest ih => rw [List.foldl_cons, s.moved_withLiveness, ih, List.foldl_cons]

theorem Store.movedCount_withLiveness (k : Kind) (cj : Cjson) (s : Store) (l : Liveness)
    (ids : List Bytes) :
    (s.withLiveness l).movedCount k cj ids = s.movedCount k cj ids := by
  induction ids generalizing s with
  | nil => rfl
  | cons id rest ih =>
      rw [Store.movedCount, s.moved_withLiveness, ih, Store.movedCount]
      rfl

theorem Store.overdue_withLiveness (env : Env) (s : Store) (l : Liveness) :
    (s.withLiveness l).overdue env = s.overdue env := rfl

theorem Store.pendingIDs_withLiveness (env : Env) (p : Bytes → Bool) (s : Store)
    (l : Liveness) : (s.withLiveness l).pendingIDs env p = s.pendingIDs env p := rfl

theorem Store.reaped_withLiveness (k : Kind) (cj : Cjson) (env : Env) (dead : List Bytes)
    (s : Store) (l : Liveness) :
    (s.withLiveness l).reaped k cj env dead = (s.reaped k cj env dead).withLiveness l :=
  s.movedAll_withLiveness k cj l _

theorem Store.liveness_movedAll (k : Kind) (cj : Cjson) (s : Store) (ids : List Bytes) :
    (ids.foldl (Store.moved k cj) s).liveness = s.liveness := by
  obtain ⟨_, _, _, _, _, _, _, _, _, h⟩ := s.movedAll_eq k cj ids
  rw [h]
  rfl

theorem exec_pendingIDs (env : Env) (p : Bytes → Bool) (s : Store) :
    (pendingIDs env p).exec s = (s.pendingIDs env p, s) := rfl

theorem release_exec (k : Kind) (cj : Cjson) (env : Env) (owner : Bytes) (s : Store) :
    (release k cj env owner).exec s =
      (s.movedCount k cj (s.pendingIDs env (ownedBy owner)), s.released k cj env owner) := by
  simp only [release, dropOwner, zrem, ↓Script.exec_bind, exec_pendingIDs,
    exec_requeueAll k cj (fun id s => exec_move k cj id s), exec_write, Script.exec_pure]
  rw [Store.released, ← s.liveness_movedAll k cj (s.pendingIDs env (ownedBy owner))]
  rfl

theorem exec_dropOwners (dead : List Bytes) (s : Store) :
    (Script.each dead dropOwner).exec s = ((), s.withLiveness (s.liveness.without dead)) := by
  induction dead generalizing s with
  | nil => rfl
  | cons m rest ih =>
      rw [Script.each, Script.exec_bind, ih]
      rfl

/-- Owners forgotten twice are forgotten once. -/
theorem Liveness.without_dedup (l : Liveness) (dead : List Bytes) :
    l.without dead.dedup = l.without dead := by
  rw [without, SortedSet.eraseAll_dedup, SortedSet.eraseAll_dedup]
  rfl

theorem exec_reap (k : Kind) (cj : Cjson) (env : Env) (dead : List Bytes) (s : Store) :
    (reap k cj env dead).exec s =
      (s.movedCount k cj (s.pendingIDs env fun id => ownerOf id ∈ dead),
        (s.reaped k cj env dead).withLiveness (s.liveness.without dead)) := by
  by_cases hdead : dead = []
  · subst hdead
    simp only [reap, if_true, Script.exec_pure, Store.reaped, Store.pendingIDs,
      List.not_mem_nil, decide_false, List.filter_false, List.insertionSort_nil]
    rfl
  · simp only [reap, hdead, if_false, ↓Script.exec_bind, exec_pendingIDs,
      exec_requeueAll k cj (fun id s => exec_move k cj id s), exec_dropOwners,
      Script.exec_pure, Store.reaped, Store.liveness_movedAll, Liveness.without_dedup]

/-- The reply of a sweep. -/
def Store.sweepReply (k : Kind) (cj : Cjson) (env : Env) (owner : Bytes) (hbt : Time)
    (s : Store) : SweepReply where
  moved := s.movedCount k cj (s.overdue env) +
    (s.caughtUp k cj env).movedCount k cj
      ((s.caughtUp k cj env).pendingIDs env fun id =>
        ownerOf id ∈ s.liveness.sweptDead env owner hbt)
  lapsed := !(((s.liveness.shifted env).heartbeats.score owner).any fun own =>
    decide (env.now ≤ own))
  paused := s.paused.isSome

theorem exec_sweepSelf (env : Env) (owner : Bytes) (hbt : Time) (s : Store) :
    (sweepSelf env owner hbt).exec s =
      ((s.clock, (s.liveness.shifted env).heartbeats.score owner),
        s.withLiveness (s.liveness.prepared env owner hbt)) := by
  have hown : ∀ t : Store, (zscore .heartbeats owner).exec t =
      (t.heartbeats.score owner, t) := fun _ => rfl
  have hclock : (s.withLiveness (s.liveness.shifted env)).clock = s.clock := by
    unfold Liveness.shifted
    split <;> rfl
  have hmove := exec_moveClock env (s.withLiveness (s.liveness.shifted env))
  rw [hclock] at hmove
  simp only [sweepSelf, getClock, Script.exec_command, ↓Script.exec_bind, exec_skipGap,
    hmove, hown, exec_renew, Script.exec_pure, Store.liveness_withLiveness,
    Store.withLiveness_withLiveness, Liveness.prepared]
  unfold Liveness.clocked
  split <;> rfl

/-- A sweep is its effect on the heartbeats, next to two requeues. -/
theorem sweep_exec (k : Kind) (cj : Cjson) (env : Env) (owner : Bytes) (hbt : Time)
    (s : Store) :
    (sweep k cj env owner hbt).exec s =
      (s.sweepReply k cj env owner hbt, s.swept k cj env owner hbt) := by
  have hoverdue : ∀ t : Store, (zrangeByScore .timeouts (fun d => d ≤ env.now) none).exec t =
      (t.overdue env, t) := fun _ => rfl
  have hdead : ∀ t : Store, (findDead env s.clock).exec t =
      (s.liveness.dead env t.liveness, t.withLiveness (s.liveness.counted env t.liveness)) :=
    fun t => exec_findDead env s.liveness t
  simp only [sweep, exec_existsPaused, exec_sweepSelf, hoverdue, hdead, exec_reap,
    exec_requeueAll k cj (fun id s => exec_move k cj id s), ↓Script.exec_bind, Script.exec_pure,
    Store.movedAll_withLiveness, Store.movedCount_withLiveness, Store.liveness_withLiveness,
    Store.withLiveness_withLiveness, Store.overdue_withLiveness, Store.pendingIDs_withLiveness,
    Store.reaped_withLiveness]
  rfl

end Redisq.Model
