import Xv6Shmem.Kernel.Table
import Xv6Shmem.Theory.Runs

/-!
# The shared-memory calls, and the machine they make

The functions `shmem_*` and `get_shmem_access` of `kernel/proc.c`, and the machine
whose steps are these, `fork`, `exec`, `exit`, `wait` and `kill`, each done as a whole
by any process that has not exited. A panic ends the run: it is no step.

The page number of a call is one that `kernel/sysproc.c` lets through. An index is any
`int`: the calls do not check it. A store through an index beyond the page goes to the
address the pointer arithmetic gives; the kernel's own tables are kept apart from this
memory. (An address outside RAM would fault in the kernel; here the store is kept, so that
the machine has every run the kernel has.)
-/

namespace Xv6Shmem.Kernel

/-! ### The calls -/

/-- The top of a group takes a page that no group uses; otherwise the page must be the
group's own. -/
def claimPage (i : PageNo) (p : Slot) (s : State) : Except Panic State :=
  if (s.shmem i).usingTopPid = -1 then
    .ok (s.setShmem i { s.shmem i with usingTopPid := (s.proc p).topPid })
  else if (s.shmem i).usingTopPid ≠ (s.proc p).topPid then .error .usedByOther
  else .ok s

/-- The body that `shmem_set_writable` and `shmem_set_unwritable` share; the state the page
gets is `st`. -/
def shmemSet (st : PageState) (i : PageNo) (p : Slot) (s : State) : Except Panic State :=
  if (s.shmem i).state ≠ .notSet then .error .alreadySet
  else do
    let s ← claimPage i p s
    let s := s.setProc p
      { s.proc p with
        shmemAccess := Function.update (s.proc p).shmemAccess i true
        shmemAccessCount := (s.proc p).shmemAccessCount + 1 }
    .ok (s.setShmem i { s.shmem i with numberofusers := (s.shmem i).numberofusers + 1, state := st })

/-- `shmem_set_writable`. -/
def shmemSetWritable : PageNo → Slot → State → Except Panic State := shmemSet .writable

/-- `shmem_set_unwritable`. -/
def shmemSetUnwritable : PageNo → Slot → State → Except Panic State := shmemSet .unwritable

/-- The address of `shared_memory[index]`, for page `i`. -/
def State.wordAddr (s : State) (i : PageNo) (index : Int32) : ℤ := (s.shmem i).phaddr + 4 * index.toInt

/-- `shmem_set_init_int`. -/
def shmemSetInitInt (i : PageNo) (index value : Int32) (p : Slot) (s : State) : Except Panic State :=
  if (s.shmem i).state ≠ .notSet then .error .alreadySet
  else do
    let s ← claimPage i p s
    .ok { s with mem := s.mem.storeInt (s.wordAddr i index) value }

/-- `shmem_write_int`. -/
def shmemWriteInt (i : PageNo) (index value : Int32) (p : Slot) (s : State) : Except Panic State :=
  if (s.shmem i).state ≠ .writable then .error (.pageLock i)
  else if !(s.proc p).shmemAccess i then .error .noAccess
  else .ok { s with mem := s.mem.storeInt (s.wordAddr i index) value }

/-- `shmem_read_int`. The two branches for a page that is set read the same word; they differ
in the lock. -/
def shmemReadInt (i : PageNo) (index : Int32) (p : Slot) (s : State) : Except Panic Int32 :=
  match (s.shmem i).state with
  | .notSet => .error (.pageLock i)
  | .unwritable | .writable =>
    if !(s.proc p).shmemAccess i then .error .noAccess
    else .ok (s.mem.loadInt (s.wordAddr i index))

/-- `shmem_acquire_access`. -/
def shmemAcquireAccess (i : PageNo) (p : Slot) (s : State) : Except Panic (Bool × State) :=
  if (s.shmem i).state = .notSet then .ok (false, s)
  else if !(s.proc p).shmemAccess i then
    if (s.proc p).topPid ≠ (s.shmem i).usingTopPid then .error .otherProcess
    else
      let s := s.setProc p { s.proc p with shmemAccess := Function.update (s.proc p).shmemAccess i true }
      .ok (true, s.setShmem i { s.shmem i with numberofusers := (s.shmem i).numberofusers + 1 })
  else .error .alreadyAccess

/-- `shmem_release_access`. -/
def shmemReleaseAccess (i : PageNo) (p : Slot) (s : State) : Except Panic State :=
  if (s.shmem i).state = .notSet then .error .notSet
  else if (s.shmem i).numberofusers = 0 then .error .stateInvalid
  else if (s.shmem i).numberofusers < 0 then .error .usersInvalid
  else if (s.proc p).shmemAccess i then
    let s := s.setProc p { s.proc p with shmemAccess := Function.update (s.proc p).shmemAccess i false }
    let s := s.setShmem i { s.shmem i with numberofusers := (s.shmem i).numberofusers - 1 }
    if (s.shmem i).numberofusers = 0 then
      .ok { s.setShmem i { s.shmem i with state := .notSet, usingTopPid := -1 } with
        mem := s.mem.memset (s.shmem i).phaddr 0 PGSIZE }
    else .ok s
  else .error .noAccess

/-- `get_shmem_access` with pid `0`, less the mapping: the argument says whether `mappages` made
it. -/
def getShmemAccess (i : PageNo) (mapped : Bool) (p : Slot) (s : State) : Except Panic State :=
  if !(s.proc p).shmemAccess i then .error .noAccess
  else if mapped then
    .ok (s.setProc p { s.proc p with shmemAccessCount := (s.proc p).shmemAccessCount + 1 })
  else .ok s

/-! ### The machine -/

/-- A system call. -/
inductive Op where
  | fork (mem : Bool)
  | exec (argc : Option Int32)
  | exit (status : Int32)
  | wait (copied : Bool)
  | kill (pid : Int32)
  | shmemSetWritable (i : PageNo)
  | shmemSetUnwritable (i : PageNo)
  | shmemSetInitInt (i : PageNo) (index value : Int32)
  | shmemWriteInt (i : PageNo) (index value : Int32)
  | shmemReadInt (i : PageNo) (index : Int32)
  | shmemAcquireAccess (i : PageNo)
  | shmemReleaseAccess (i : PageNo)
  | shmemAccess (i : PageNo) (mapped : Bool)
  deriving DecidableEq

/-- The call is `exec`. -/
def Op.isExec : Op → Bool
  | .exec _ => true
  | _ => false

/-- The call is `exit`. -/
def Op.isExit : Op → Bool
  | .exit _ => true
  | _ => false

/-- The call has no part in the memory of the processes. -/
def Op.plain : Op → Bool
  | .fork _ | .exec _ | .wait _ | .shmemAccess _ _ => false
  | _ => true

/-- What a call does when process `p` makes it: the value it returns, if it returns one, and
the state after it. -/
def call (p : Slot) (s : State) : Op → Except Panic (Option Int32 × State)
  | .fork mem => .ok ((fork mem p s).map some id)
  | .exec argc => .ok ((exec argc p s).map some id)
  | .exit status => (exit status p s).map (none, ·)
  | .wait copied => .ok (wait copied p s)
  | .kill pid => .ok ((kill pid s).map some id)
  | .shmemSetWritable i => (shmemSetWritable i p s).map (none, ·)
  | .shmemSetUnwritable i => (shmemSetUnwritable i p s).map (none, ·)
  | .shmemSetInitInt i index value => (shmemSetInitInt i index value p s).map (none, ·)
  | .shmemWriteInt i index value => (shmemWriteInt i index value p s).map (none, ·)
  | .shmemReadInt i index => (shmemReadInt i index p s).map (some ·, s)
  | .shmemAcquireAccess i => (shmemAcquireAccess i p s).map fun r => (some (if r.1 then 1 else 0), r.2)
  | .shmemReleaseAccess i => (shmemReleaseAccess i p s).map (none, ·)
  | .shmemAccess i mapped => (getShmemAccess i mapped p s).map (none, ·)

/-- A call that was made and did not panic: the process, the call, and what it returned. -/
structure Event where
  /-- The slot of the calling process. -/
  slot : Slot
  /-- The call. -/
  op : Op
  /-- The value it returned. -/
  ret : Option Int32
  deriving DecidableEq

/-- **The machine**: from the state after start, any process that has not exited makes any
call. -/
def machine (base : ℤ) (m : Mem) : LTS State Event where
  init := fun s => s = boot base m
  step := fun s e t => (s.proc e.slot).live ∧ call e.slot s e.op = .ok (e.ret, t)

/-- Run a list of calls from a state, keeping the trace; `none` if one of them panics or its
caller is not there. -/
def traceCalls (s : State) : List (Slot × Op) → Option (List (State × Event) × State)
  | [] => some ([], s)
  | (p, op) :: l =>
    if (s.proc p).live then
      match call p s op with
      | .ok (r, t) => (traceCalls t l).map fun x => ((s, ⟨p, op, r⟩) :: x.1, x.2)
      | .error _ => none
    else none

variable {base : ℤ} {m : Mem} {t : State} {l : List (Slot × Op)} {tr : List (State × Event)}

theorem run_of_traceCalls {s : State} (h : traceCalls s l = some (tr, t)) : (machine base m).Run s tr t := by
  induction l generalizing s tr with
  | nil => cases h; exact .nil
  | cons c l ih =>
    obtain ⟨p, op⟩ := c
    simp only [traceCalls] at h
    split_ifs at h with hp
    split at h
    · rename_i r u hc
      obtain ⟨⟨tr', t'⟩, h', hx⟩ := Option.map_eq_some_iff.mp h
      cases hx
      exact .cons ⟨hp, hc⟩ (ih h')
    · cases h

theorem calls_of_traceCalls {s : State}
    (h : traceCalls s l = some (tr, t)) : (tr.map Prod.snd).map (fun e => (e.slot, e.op)) = l := by
  induction l generalizing s tr with
  | nil => cases h; rfl
  | cons c l ih =>
    obtain ⟨p, op⟩ := c
    simp only [traceCalls] at h
    split_ifs at h with hp
    split at h
    · obtain ⟨⟨tr', t'⟩, h', hx⟩ := Option.map_eq_some_iff.mp h
      cases hx
      rw [List.map_cons, List.map_cons, ih h']
    · cases h

theorem traceCalls_boot (h : traceCalls (boot base m) l = some (tr, t)) :
    (machine base m).Run (boot base m) tr t :=
  run_of_traceCalls h

/-- Run a list of calls from a state. -/
def runCalls (s : State) (l : List (Slot × Op)) : Option State := (traceCalls s l).map Prod.snd

/-- What a list of calls after start leads to is reachable. -/
theorem runCalls_boot (h : runCalls (boot base m) l = some t) : (machine base m).Reachable t := by
  obtain ⟨⟨tr, t'⟩, htr, rfl⟩ := Option.map_eq_some_iff.mp h
  exact ⟨_, tr, rfl, traceCalls_boot htr⟩

end Xv6Shmem.Kernel
