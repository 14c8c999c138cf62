import Xv6Shmem.SharedMemory.Frame
import Xv6Shmem.SharedMemory.ReadOnly
import Xv6Shmem.Interaction.LostUpdate
import Xv6Shmem.Interaction.CheckThenUse
import Xv6Shmem.Vm.Panics
import Xv6Shmem.SharedMemory.Images
import Xv6Shmem.Locking.Deadlock
import Xv6Shmem.Disk.Cache
import Xv6Shmem.Disk.LogSpace
import Xv6Shmem.Processes.Kill
import Xv6Shmem.Processes.Pids
import Xv6Shmem.Sleeping.Fifo
import Xv6Shmem.Fs.Balance
import Xv6Shmem.Devices.Completions
import Xv6Shmem.Vm.Refinement
import Xv6Shmem.Fs.Reading
import Xv6Shmem.Fs.Paths
import Xv6Shmem.User.Grep
import Xv6Shmem.Vm.Memmove
import Xv6Shmem.SharedMemory.AccessCount
import Xv6Shmem.Vm.FreeList
import Xv6Shmem.Locking.Interrupts
import Xv6Shmem.Disk.Coherence
import Xv6Shmem.SharedMemory.Lifecycle
