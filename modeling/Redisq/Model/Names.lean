import Redisq.Model.Store

/-!
# The names of Redis keys

Names are built by concatenation, in `queues.key` and `queues.prefix`, in
`instancesKey`, and wherever a suffix is added to a queue's key.
-/

namespace Redisq.Model

/-- The byte `\x7b`. -/
def openBrace : Byte := 123

/-- The byte `\x7d`. -/
def closeBrace : Byte := 125

/-- A namespace, empty for none: `WithNamespace` refuses braces. -/
@[ext] structure Namespace where
  name : Bytes
  unopened : openBrace ∉ name
  unclosed : closeBrace ∉ name
deriving DecidableEq

/-- A queue key as callers give it: `key` refuses the empty one and braces. -/
@[ext] structure QueueName where
  name : Bytes
  nonempty : name ≠ []
  unopened : openBrace ∉ name
  unclosed : closeBrace ∉ name

instance : DecidableEq QueueName := fun q r =>
  decidable_of_iff (q.name = r.name) QueueName.ext_iff.symm

/-- `prefix()`. -/
def Namespace.stem (ns : Namespace) : Bytes :=
  if ns.name = [] then text "redisq:" else text "redisq:" ++ ns.name ++ text ":"

/-- The kind as it stands in a name. -/
def Kind.name : Kind → Bytes
  | .fifo => text "fifo"
  | .prio => text "prio"

/-- `key(kind, queueKey)`. -/
def queueKey (ns : Namespace) (k : Kind) (q : QueueName) : Bytes :=
  ns.stem ++ k.name ++ text ":\x7b" ++ q.name ++ text "\x7d"

/-- What a sidecar adds to its queue's key. -/
def Key.suffix : Key → Bytes
  | .queue => []
  | .nacked => text ":nacked"
  | .timeouts => text ":timeouts"
  | .started => text ":started"
  | .attempts => text ":attempts"
  | .prio => text ":prio"
  | .seq => text ":seq"
  | .stats => text ":stats"
  | .jobs => text ":jobs"
  | .completed => text ":completed"
  | .failed => text ":failed"
  | .idle => text ":idle"
  | .heartbeats => text ":heartbeats"
  | .clock => text ":heartbeats" ++ text ":clock"
  | .presence => text ":presence"
  | .paused => text ":paused"
  | .dedup id => text ":dedup:" ++ id

/-- `instancesKey()`. -/
def instancesKey (ns : Namespace) : Bytes :=
  ns.stem ++ text "\x7binstances\x7d"

/-- What a name denotes: a key of a queue, or a namespace's Instance Records
or their report times. -/
inductive RedisKey
  | queue (ns : Namespace) (k : Kind) (q : QueueName) (key : Key)
  | instances (ns : Namespace)
  | beats (ns : Namespace)
deriving DecidableEq

/-- The name. -/
def RedisKey.name : RedisKey → Bytes
  | .queue ns k q key => queueKey ns k q ++ key.suffix
  | .instances ns => instancesKey ns
  | .beats ns => instancesKey ns ++ text ":beats"

end Redisq.Model
