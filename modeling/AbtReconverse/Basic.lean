/-!
# AbtReconverse.Basic

Enumerations shared by the models: what `abt.h`, `abti.h` and the Reconverse headers name.
-/

namespace AbtReconverse

/-- `ABTI_thread_type`. -/
inductive ThreadType where
  | primary
  | named
  | detached
  | sched
  deriving DecidableEq, Repr

/-- State of a work unit: the `CTH_STATE_*` of its Reconverse thread (`tstate` for a tasklet).
`unborn` is a descriptor that has not been allocated yet. -/
inductive UnitState where
  | unborn
  | ready
  | running
  | blocked
  | terminated
  deriving DecidableEq, Repr

/-- `ABT_pool_access`, in the order of its values. -/
inductive PoolAccess where
  | priv
  | spsc
  | mpsc
  | spmc
  | mpmc
  deriving DecidableEq, Repr

/-- `access <= ABT_POOL_ACCESS_MPSC`: the pool uses the lock-free single-consumer queue. -/
def PoolAccess.singleConsumer : PoolAccess → Bool
  | .priv | .spsc | .mpsc => true
  | .spmc | .mpmc => false

/-- `ABT_sched_predef`. -/
inductive SchedPredef where
  | default
  | basic
  | prio
  | randws
  | basicWait
  deriving DecidableEq, Repr

end AbtReconverse
