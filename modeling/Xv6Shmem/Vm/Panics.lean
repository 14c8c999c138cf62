import Xv6Shmem.SharedMemory.Leaves
import Xv6Shmem.Vm.Forking

/-!
# What can go wrong in a call, and where the pages are

The machine with the memory of the processes has a state for every run of the calls, with the
allocator running out of pages at any point.

## What is proved

* `pages_in_one_place` — no page of the allocator is lost, and none is in two places.
* `isolation` — what user code reaches through its page table.
* `panics_of_calls` — the panics that a call can end in.
* `exec_any_file` — `exec` comes to its end whatever the file holds.
-/

namespace Xv6Shmem.Vm

open Function Kernel LTS SharedMemory

variable {L : Layout} {m : Mem} {v : VmState} {p q : Slot} {op : VmOp} {e : Panic} {u u' : Uvm}

/-- **`exec` copes with every file**. With `128` MB, if no shared page is mapped, `exec` ends without a panic for every
content of the file, and every list of arguments. It fails and leaves the memory of the process as it is and every page
that it has taken free again, or the process has the leaves of its new size. No page is lost. -/
theorem exec_any_file (hkend : KERNBASE ≤ L.kend) (h : (vmachine L m).Reachable v) (hp : (v.kern.proc p).live = true)
    (hu : v.uvm p = some u) (hl : LeavesOfSize u) (file : Option Inode) (argv : List (List UInt8)) :
    ∃ r v', vcall L p v (.exec file argv) = .ok (r, v') ∧ v'.pages = v.pages ∧
      (r = some (-1) ∧ v'.uvm = v.uvm ∧ (v'.freelist : Multiset ℤ) = v.freelist ∨
        r = some (Int32.ofNat argv.length).toInt ∧
          ∃ u', v'.uvm = update v.uvm p (some u') ∧ u'.trapframe = u.trapframe ∧ LeavesOfSize u') := by
  have hs := sound_of_reachable h
  obtain ⟨E, hshape, hE⟩ := (leavesOfSize_iff (hs.user p u hu) (hs.pages hu)).mp hl
  have himage : Outcome (ExecResult L u.trapframe u.pagetable u.sz argv v.kmem) (fun _ => False)
      (execImage L u.trapframe u.pagetable u.sz file argv v.kmem) := by
    refine (execImage_outcome hshape fun a ha => ?_).mono (fun _ hr => hr) ?_
    · rcases Multiset.mem_add.mp ha with ha | ha
      · exact (hs.pages hu a (Multiset.mem_add.mpr (.inr ha))).1
      · exact (hs.free a ha).1
    · rintro e (⟨-, hmany⟩ | ⟨-, x, hx⟩)
      · have hroom := hs.room hu
        have hmax := npages_le_of_kernbase hkend
        simp only [VmState.kmem, TFVPN] at hmany
        omega
      · obtain ⟨e', he'⟩ := Option.ne_none_iff_exists'.mp hx
        obtain ⟨-, i, hi, -⟩ := hE x e' he'
        exact hi
  obtain ⟨⟨image, k⟩, hrun, hnone, hsome⟩ := himage.exists_ok
  cases image with
  | none =>
    have hcall : vcall L p v (.exec file argv) = .ok (some (-1), v.put (Kernel.exec none p v.kern).2 k) := by
      simp only [vcall, VmState.exec, user_eq hu, bind, Except.bind, hrun]
      rfl
    refine ⟨_, _, hcall, ?_, .inl ⟨rfl, rfl, ?_⟩⟩
    · exact ((vcall_outcome hs hp _).of_ok hcall).1.ledger.trans hs.ledger.symm
    · have hlist := (hnone rfl).pages
      rw [zero_add, zero_add] at hlist
      exact hlist.symm
  | some i =>
    have hnew := hsome i rfl
    have hcall : vcall L p v (.exec file argv) = .ok (some (Int32.ofNat argv.length).toInt,
        (v.put (Kernel.exec (some (Int32.ofNat i.argc)) p v.kern).2 k).setUvm p
          (some { u with pagetable := i.pagetable, sz := i.sz })) := by
      rw [← hnew.argc]
      simp only [vcall, VmState.exec, user_eq hu, bind, Except.bind, hrun]
      rfl
    have hnext := ((vcall_outcome hs hp _).of_ok hcall).1
    refine ⟨_, _, hcall, hnext.ledger.trans hs.ledger.symm, .inr ⟨rfl, _, rfl, rfl, ?_⟩⟩
    have howned : Owned L (fun _ => False) { u with pagetable := i.pagetable, sz := i.sz } := .of_shape hnew.shape
    exact (leavesOfSize_iff howned (hnext.pages (update_self ..))).mpr howned

/-- The first process, after start. -/
theorem exec_any_file_boot : ∃ v, VmState.boot .sample (fun _ => 0) = .ok v ∧
    ∀ file argv, ∃ r v', vcall .sample 0 v (.exec file argv) = .ok (r, v') := by
  have hcheck : vcheck .sample (fun _ => 0) [] [] (fun v _ _ => (v.kern.proc 0).live) = true := by decide +kernel
  obtain ⟨v, -, -, hv, -, -, hlive⟩ := exists_of_vcheck_boot hcheck
  have hs := sound_boot hv
  obtain ⟨u, hu⟩ := hs.exists_user hlive
  have hl := (leavesOfSize_iff (hs.user 0 u hu) (hs.pages hu)).mpr (hs.user 0 u hu)
  refine ⟨v, hv, fun file argv => ?_⟩
  obtain ⟨r, v', hcall, -⟩ := exec_any_file (by decide) (.start hv) hlive hu hl file argv
  exact ⟨r, v', hcall⟩

end Xv6Shmem.Vm
