import Redisq.Library.Separator
import Redisq.Model.Names

/-!
# Which names collide

Two names are equal only if they denote the same key, but for one kind of
pair: the queue called `instances`, of kind `fifo` or `prio`, has the name of
the Instance Records of the namespace that ends in that kind.
-/

namespace Redisq.Model

/-! ## The parts of a name -/

/-- Suffixes of a fixed text. -/
def fixedKeys : List Key :=
  [.queue, .nacked, .timeouts, .started, .attempts, .prio, .seq, .stats, .jobs, .completed,
    .failed, .idle, .heartbeats, .clock, .presence, .paused]

theorem Key.fixed_or_dedup (key : Key) : key ∈ fixedKeys ∨ ∃ id, key = .dedup id := by
  cases key with
  | dedup id => exact Or.inr ⟨id, rfl⟩
  | _ => exact Or.inl (by decide)

theorem fixedKeys_suffix_nodup : (fixedKeys.map Key.suffix).Nodup := by decide

theorem fixedKeys_not_dedup : ∀ key ∈ fixedKeys, ¬text ":dedup:" <+: key.suffix := by decide

/-- A suffix determines its key. -/
theorem Key.suffix_injective {x y : Key} (h : x.suffix = y.suffix) : x = y := by
  rcases x.fixed_or_dedup with hx | ⟨id, rfl⟩ <;> rcases y.fixed_or_dedup with hy | ⟨id', rfl⟩
  · exact List.inj_on_of_nodup_map fixedKeys_suffix_nodup hx hy h
  · exact absurd ⟨id', h.symm⟩ (fixedKeys_not_dedup x hx)
  · exact absurd ⟨id, h⟩ (fixedKeys_not_dedup y hy)
  · exact congrArg Key.dedup (List.append_cancel_left h)

/-- No suffix is that of the report times. -/
theorem Key.suffix_ne_beats (key : Key) : key.suffix ≠ text ":beats" := by
  rcases key.fixed_or_dedup with hkey | ⟨id, rfl⟩
  · revert key
    decide
  · intro h
    have := congrArg List.length h
    have hlen : (text ":dedup:").length = 7 := by decide
    have hbeats : (text ":beats").length = 6 := by decide
    rw [Key.suffix, List.length_append] at this
    omega

theorem Namespace.stem_injective {ns ns' : Namespace} (h : ns.stem = ns'.stem) : ns = ns' := by
  unfold Namespace.stem at h
  by_cases hns : ns.name = [] <;> by_cases hns' : ns'.name = []
  · exact Namespace.ext (hns.trans hns'.symm)
  · simp [hns, hns'] at h
  · simp [hns, hns'] at h
  · simp [hns, hns'] at h
    exact Namespace.ext h

theorem Namespace.unopened_stem (ns : Namespace) : openBrace ∉ ns.stem := by
  have hstart : openBrace ∉ text "redisq:" := by decide
  have hcolon : openBrace ∉ text ":" := by decide
  unfold Namespace.stem
  split
  · exact hstart
  · simp only [List.mem_append, not_or]
    exact ⟨⟨hstart, ns.unopened⟩, hcolon⟩

/-- A stem is not empty and ends in a colon. -/
theorem Namespace.stem_eq (ns : Namespace) :
    ns.stem = text "redisq:" ++ if ns.name = [] then [] else ns.name ++ text ":" := by
  unfold Namespace.stem
  split
  · exact (List.append_nil _).symm
  · exact List.append_assoc _ _ _

namespace RedisKey

/-- What stands before the brace. -/
def head : RedisKey → Bytes
  | .queue ns k _ _ => ns.stem ++ (k.name ++ text ":")
  | .instances ns => ns.stem
  | .beats ns => ns.stem

/-- What stands between the braces. -/
def tag : RedisKey → Bytes
  | .queue _ _ q _ => q.name
  | _ => text "instances"

/-- What stands after them. -/
def tail : RedisKey → Bytes
  | .queue _ _ _ key => key.suffix
  | .instances _ => []
  | .beats _ => text ":beats"

theorem name_eq (x : RedisKey) :
    x.name = x.head ++ openBrace :: (x.tag ++ closeBrace :: x.tail) := by
  have hcolon : text ":\x7b" = text ":" ++ [openBrace] := by decide
  have hclose : text "\x7d" = [closeBrace] := by decide
  have htag : text "\x7binstances\x7d" = openBrace :: (text "instances" ++ [closeBrace]) := by
    decide
  cases x <;> simp [name, queueKey, instancesKey, head, tag, tail, hcolon, hclose, htag]

theorem unopened_head (x : RedisKey) : openBrace ∉ x.head := by
  cases x with
  | queue ns k q key =>
      have hkind : openBrace ∉ k.name ++ text ":" := by cases k <;> decide
      exact List.not_mem_append ns.unopened_stem hkind
  | instances ns => exact ns.unopened_stem
  | beats ns => exact ns.unopened_stem

theorem unclosed_tag (x : RedisKey) : closeBrace ∉ x.tag := by
  cases x with
  | queue ns k q key => exact q.unclosed
  | _ => exact (by decide : closeBrace ∉ text "instances")

/-- A name determines its three parts. -/
theorem name_eq_iff {x y : RedisKey} :
    x.name = y.name ↔ x.head = y.head ∧ x.tag = y.tag ∧ x.tail = y.tail := by
  constructor
  · intro h
    rw [name_eq, name_eq] at h
    obtain ⟨hhead, hrest⟩ := Separator.split_first x.unopened_head y.unopened_head h
    obtain ⟨htag, htail⟩ := Separator.split_first x.unclosed_tag y.unclosed_tag hrest
    exact ⟨hhead, htag, htail⟩
  · rintro ⟨hhead, htag, htail⟩
    rw [name_eq, name_eq, hhead, htag, htail]

end RedisKey

/-! ## Collisions -/

/-- The namespace, and the kind after it. -/
def Namespace.andKind (ns : Namespace) (k : Kind) : Bytes :=
  if ns.name = [] then k.name else ns.name ++ text ":" ++ k.name

/-- The queue called `instances`, against the Instance Records of the
namespace that ends in its kind. -/
def Collides : RedisKey → RedisKey → Prop
  | .queue ns k q .queue, .instances ns' =>
      q.name = text "instances" ∧ ns'.name = ns.andKind k
  | _, _ => False

/-- The heads of two queues' keys. -/
theorem queue_head_injective {ns ns' : Namespace} {k k' : Kind}
    (h : ns.stem ++ (k.name ++ text ":") = ns'.stem ++ (k'.name ++ text ":")) :
    ns = ns' ∧ k = k' := by
  have hlen : (k.name ++ text ":").length = (k'.name ++ text ":").length := by
    cases k <;> cases k' <;> decide
  obtain ⟨hstem, hkind⟩ := List.append_inj' h hlen
  refine ⟨Namespace.stem_injective hstem, ?_⟩
  revert hkind
  cases k <;> cases k' <;> decide

/-- The head of a queue's key is the stem of the namespace that ends in its
kind. -/
theorem queue_head_eq_stem {ns ns' : Namespace} {k : Kind} :
    ns.stem ++ (k.name ++ text ":") = ns'.stem ↔ ns'.name = ns.andKind k := by
  have hkind : k.name ≠ [] := by cases k <;> decide
  rw [ns.stem_eq, ns'.stem_eq, List.append_assoc, List.append_cancel_left_eq, Namespace.andKind]
  by_cases hns : ns.name = [] <;> by_cases hns' : ns'.name = []
  · simp [hns, hns', hkind, Ne.symm hkind]
  · simp [hns, hns', eq_comm]
  · simp [hns, hns', hkind]
  · simp only [hns, hns', if_false, ← List.append_assoc, List.append_cancel_right_eq]
    exact eq_comm

/-- A collision is one. -/
theorem Collides.name_eq {x y : RedisKey} (h : Collides x y) : x.name = y.name := by
  rw [RedisKey.name_eq_iff]
  match x, y, h with
  | .queue ns k q .queue, .instances ns', h => exact ⟨queue_head_eq_stem.mpr h.2, h.1, rfl⟩

/-- A queue's key has the name of Instance Records in a collision only. -/
theorem collides_of_name_eq {ns ns' : Namespace} {k : Kind} {q : QueueName} {key : Key}
    (h : (RedisKey.queue ns k q key).name = (RedisKey.instances ns').name) :
    Collides (.queue ns k q key) (.instances ns') := by
  obtain ⟨hhead, htag, htail⟩ := RedisKey.name_eq_iff.mp h
  obtain rfl : key = .queue := Key.suffix_injective htail
  exact ⟨htag, queue_head_eq_stem.mp hhead⟩

/-- A queue's key never has the name of report times. -/
theorem queue_name_ne_beats {ns ns' : Namespace} {k : Kind} {q : QueueName} {key : Key} :
    (RedisKey.queue ns k q key).name ≠ (RedisKey.beats ns').name := fun h =>
  key.suffix_ne_beats (RedisKey.name_eq_iff.mp h).2.2

/-- Two keys of queues have one name only if they are one. -/
theorem queue_name_injective {ns ns' : Namespace} {k k' : Kind} {q q' : QueueName}
    {key key' : Key}
    (h : (RedisKey.queue ns k q key).name = (RedisKey.queue ns' k' q' key').name) :
    RedisKey.queue ns k q key = .queue ns' k' q' key' := by
  obtain ⟨hhead, htag, htail⟩ := RedisKey.name_eq_iff.mp h
  obtain ⟨rfl, rfl⟩ := queue_head_injective hhead
  rw [QueueName.ext htag, Key.suffix_injective htail]

/-- Instance Records and report times of one name are of one namespace. -/
theorem instances_name_ne_beats {ns ns' : Namespace} :
    (RedisKey.instances ns).name ≠ (RedisKey.beats ns').name := fun h =>
  absurd (RedisKey.name_eq_iff.mp h).2.2 (by decide : ([] : Bytes) ≠ text ":beats")

/-- Equal names are of the same key, or collide. -/
theorem eq_or_collides {x y : RedisKey} (h : x.name = y.name) :
    x = y ∨ Collides x y ∨ Collides y x := by
  cases x <;> cases y
  case queue.queue => exact Or.inl (queue_name_injective h)
  case queue.instances => exact Or.inr (Or.inl (collides_of_name_eq h))
  case queue.beats => exact absurd h queue_name_ne_beats
  case instances.queue => exact Or.inr (Or.inr (collides_of_name_eq h.symm))
  case instances.instances =>
    exact Or.inl (congrArg _ (Namespace.stem_injective (RedisKey.name_eq_iff.mp h).1))
  case instances.beats => exact absurd h instances_name_ne_beats
  case beats.queue => exact absurd h.symm queue_name_ne_beats
  case beats.instances => exact absurd h.symm instances_name_ne_beats
  case beats.beats =>
    exact Or.inl (congrArg _ (Namespace.stem_injective (RedisKey.name_eq_iff.mp h).1))

theorem not_collides_self (x : RedisKey) : ¬Collides x x := by
  cases x with
  | queue ns k q key => cases key <;> exact id
  | _ => exact id

/-- A name denotes one key, except in the collision of a queue called
`instances` with the Instance Records of the namespace that ends in its
kind. -/
theorem name_denotes_iff (x y : RedisKey) :
    (x.name = y.name → x = y) ↔ ¬(Collides x y ∨ Collides y x) := by
  constructor
  · rintro h (hxy | hyx)
    · exact not_collides_self y (h hxy.name_eq ▸ hxy)
    · exact not_collides_self x (h hyx.name_eq.symm ▸ hyx)
  · intro h hname
    exact (eq_or_collides hname).resolve_right h

/-- Queue `instances` without a namespace, and the Instance Records of the
namespace `fifo`. -/
theorem instances_queue_collides :
    ¬∀ x y : RedisKey, x.name = y.name → x = y := by
  intro h
  have heq := h
    (.queue ⟨[], by decide, by decide⟩ .fifo
      ⟨text "instances", by decide, by decide, by decide⟩ .queue)
    (.instances ⟨text "fifo", by decide, by decide⟩) (by decide)
  cases heq

end Redisq.Model
