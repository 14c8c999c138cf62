import Xv6Shmem.Kernel.Shmem

/-!
# From the registers to the calls on words

`sys_shmem_set_init_int`, `sys_shmem_write_int` and `sys_shmem_read_int` of `kernel/sysproc.c`:
the arguments are what `argint` of `kernel/syscall.c` takes from the registers that the trap has
left, the low 32 bits of each, read as an `int`. Of the arguments only the page number is checked.
-/

namespace Xv6Shmem.Kernel

/-- The registers of `struct trapframe` that hold the arguments of these calls. -/
structure Trapframe where
  a0 : UInt64
  a1 : UInt64
  a2 : UInt64

/-- `argint`: a register, cut to an `int`. -/
def argint (a : UInt64) : Int32 := a.toUInt32.toInt32

/-- The check of a page number, `page_number < 0 || page_number > SHMEM - 1`; the page if it is let through. -/
def pageArg (n : Int32) : Option PageNo :=
  if n < 0 ∨ 3 < n then none else some (Fin.ofNat SHMEM n.toInt.toNat)

/-- `sys_shmem_set_init_int`. -/
def sysShmemSetInitInt (tf : Trapframe) (p : Slot) (s : State) : Except Panic State :=
  match pageArg (argint tf.a0) with
  | none => .ok s
  | some i => shmemSetInitInt i (argint tf.a1) (argint tf.a2) p s

/-- `sys_shmem_write_int`. -/
def sysShmemWriteInt (tf : Trapframe) (p : Slot) (s : State) : Except Panic State :=
  match pageArg (argint tf.a0) with
  | none => .ok s
  | some i => shmemWriteInt i (argint tf.a1) (argint tf.a2) p s

/-- `sys_shmem_read_int`: the `int` is extended to the 64 bits of the register that it is returned in. -/
def sysShmemReadInt (tf : Trapframe) (p : Slot) (s : State) : Except Panic UInt64 :=
  match pageArg (argint tf.a0) with
  | none => .ok (-1 : Int64).toUInt64
  | some i => (shmemReadInt i (argint tf.a1) p s).map fun v => v.toInt64.toUInt64

end Xv6Shmem.Kernel
