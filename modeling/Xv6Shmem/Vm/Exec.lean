import Xv6Shmem.Vm.UserCopy

/-!
# Loading a program

`kernel/exec.c`: read the ELF header and the program headers, allocate and load the
segments into a new page table, add a guard page and a stack, push the arguments, and
only then commit to the new image and free the old one. Any failure before that frees
the new page table.

The file is what `readi` delivers for each offset and length, which may be fewer bytes
than were asked for; headers are decoded from these bytes. The arguments are the strings
that `sys_exec` has fetched. The registers that `exec` leaves in the trapframe are not
kept.

A page table that `exec` builds has the leaves of its size and pages that were free
(`Building`). `execImage_outcome` says what comes of it: a failure has given all of them
back, and a success has moved the pages of the old image to the list and left those of the
new one (`NewImage`).
-/

namespace Xv6Shmem.Vm

open Kernel Radix

/-- A file, as `readi` reads it into the kernel. -/
structure Inode where
  /-- The bytes read, for an offset and a length. -/
  readi : ℕ → ℕ → List UInt8
  /-- No more than were asked for. -/
  length_le : ∀ off n, (readi off n).length ≤ n

/-- The unsigned integer of `n` bytes at offset `off`, the least significant first. -/
def field (bs : List UInt8) (off n : ℕ) : ℕ :=
  ((bs.drop off).take n).foldr (fun b acc => b.toNat + 256 * acc) 0

/-- `ELF_MAGIC`. -/
abbrev ELF_MAGIC : ℕ := 0x464C457F

/-- `ELF_PROG_LOAD`. -/
abbrev ELF_PROG_LOAD : ℕ := 1

/-- `MAXARG`. -/
abbrev MAXARG : ℕ := 32

/-- `sizeof(struct elfhdr)`. -/
abbrev ELFHDR : ℕ := 64

/-- `sizeof(struct proghdr)`. -/
abbrev PROGHDR : ℕ := 56

/-- `flags2perm`: `PTE_W` and `PTE_X`. -/
def flags2perm (flags : ℕ) : Bool × Bool := (flags.testBit 1, flags.testBit 0)

/-! ### Segments -/

/-- The loop of `loadseg`; whether every read was complete. -/
def loadsegLoop (pt : Pagetable) (va : ℕ) (ip : Inode) (offset sz : ℕ) :
    ℕ → ℕ → Mem → Except Panic (Bool × Mem)
  | 0, _, m => .ok (true, m)
  | turns + 1, i, m =>
    match walkaddr pt (va + i) with
    | none => .error .loadseg
    | some pa =>
      let n := min (sz - i) PGSIZE
      let bs := ip.readi ((offset + i) % 2 ^ 32) n
      if bs.length ≠ n then .ok (false, m.write pa bs)
      else loadsegLoop pt va ip offset sz turns (i + PGSIZE) (m.write pa bs)

/-- `loadseg`. -/
def loadseg (pt : Pagetable) (va : ℕ) (ip : Inode) (offset sz : ℕ) (m : Mem) : Except Panic (Bool × Mem) :=
  loadsegLoop pt va ip offset sz ((sz + PGSIZE - 1) / PGSIZE) 0 m

/-- The loop of `exec` over the program headers; whether all went well, and the size, the page
table and the memory reached. -/
def execSegments (L : Layout) (ip : Inode) :
    ℕ → UInt32 → ℕ → Pagetable → Kmem → Except Panic (Bool × ℕ × Pagetable × Kmem)
  | 0, _, sz, pt, k => .ok (true, sz, pt, k)
  | n + 1, off, sz, pt, k =>
    let ph := ip.readi off.toNat PROGHDR
    if ph.length ≠ PROGHDR then .ok (false, sz, pt, k)
    else if field ph 0 4 ≠ ELF_PROG_LOAD then execSegments L ip n (off + 56) sz pt k
    else
      let flags := field ph 4 4
      let offset := field ph 8 8
      let vaddr := field ph 16 8
      let filesz := field ph 32 8
      let memsz := field ph 40 8
      if memsz < filesz then .ok (false, sz, pt, k)
      else if (vaddr + memsz) % 2 ^ 64 < vaddr then .ok (false, sz, pt, k)
      else if vaddr % PGSIZE ≠ 0 then .ok (false, sz, pt, k)
      else do
        let (sz1, pt, k) ← uvmalloc L pt sz ((vaddr + memsz) % 2 ^ 64) (flags2perm flags) k
        if sz1 = 0 then .ok (false, sz, pt, k)
        else
          let (loaded, m) ← loadseg pt vaddr ip (offset % 2 ^ 32) (filesz % 2 ^ 32) k.mem
          if !loaded then .ok (false, sz1, pt, { k with mem := m })
          else execSegments L ip n (off + 56) sz1 pt { k with mem := m }

/-! ### Arguments -/

/-- `a - b` in 64 bits. -/
def sub64 (a b : ℕ) : ℕ := (a + (2 ^ 64 - b % 2 ^ 64)) % 2 ^ 64

/-- The eight bytes of a pointer. -/
def pointerBytes (p : ℕ) : List UInt8 := (List.range 8).map fun j => UInt8.ofNat (p / 256 ^ j)

/-- The loop of `exec` over the arguments: whether all could be pushed, the stack pointer, the
addresses of the strings so far, and the memory. -/
def pushArgs (pt : Pagetable) (stackbase : ℕ) :
    List (List UInt8) → ℕ → List ℕ → Mem → Bool × ℕ × List ℕ × Mem
  | [], sp, ustack, m => (true, sp, ustack, m)
  | s :: argv, sp, ustack, m =>
    if MAXARG ≤ ustack.length then (false, sp, ustack, m)
    else
      let sp := sub64 sp (s.length + 1)
      let sp := sp - sp % 16
      if sp < stackbase then (false, sp, ustack, m)
      else
        let r := copyout pt sp (s ++ [0]) m
        if !r.1 then (false, sp, ustack, r.2) else pushArgs pt stackbase argv sp (ustack ++ [sp]) r.2

/-- The stack of a new program: the strings, then the array of pointers to them; whether it could
be made, and the memory. -/
def execStack (pt : Pagetable) (sz : ℕ) (argv : List (List UInt8)) (m : Mem) : Bool × Mem :=
  let stackbase := sz - PGSIZE
  match pushArgs pt stackbase argv sz [] m with
  | (false, _, _, m) => (false, m)
  | (true, sp, ustack, m) =>
    let sp := sub64 sp ((ustack.length + 1) * 8)
    let sp := sp - sp % 16
    if sp < stackbase then (false, m)
    else copyout pt sp ((ustack ++ [0]).flatMap pointerBytes) m

/-! ### `exec` -/

/-- What `exec` leaves: the number of arguments, the size and the page table. -/
structure Image where
  /-- `argc`. -/
  argc : ℕ
  /-- The size of the process. -/
  sz : ℕ
  /-- Its page table. -/
  pagetable : Pagetable

/-- The label `bad` of `exec`, when there is a page table. -/
def execBad (L : Layout) (pt : Pagetable) (sz : ℕ) (k : Kmem) : Except Panic (Option Image × Kmem) := do
  let k ← procFreepagetable L pt sz k
  .ok (none, k)

/-- `exec` from the new page table `pt` on, for a process that has page table `old` and size
`oldsz`. -/
def execLoad (L : Layout) (old : Pagetable) (oldsz : ℕ) (ip : Inode) (argv : List (List UInt8)) (elf : List UInt8)
    (pt : Pagetable) (k : Kmem) : Except Panic (Option Image × Kmem) := do
  let (loaded, sz, pt, k) ← execSegments L ip (field elf 56 2) (UInt32.ofNat (field elf 32 8)) 0 pt k
  if !loaded then execBad L pt sz k
  else
    let sz := pgroundup sz
    let (sz1, pt, k) ← uvmalloc L pt sz (sz + 2 * PGSIZE) (true, false) k
    if sz1 = 0 then execBad L pt sz k
    else
      let pt ← uvmclear pt (sz1 - 2 * PGSIZE) k
      let r := execStack pt sz1 argv k.mem
      if !r.1 then execBad L pt sz1 { k with mem := r.2 }
      else
        let k ← procFreepagetable L old oldsz { k with mem := r.2 }
        .ok (some ⟨argv.length, sz1, pt⟩, k)

/-- `exec`, but for `top_pid`: the new image, or `none` if it returns `-1`. `file` is what `namei` finds;
`tf` is the trapframe of the process. -/
def execImage (L : Layout) (tf : ℤ) (old : Pagetable) (oldsz : ℕ) (file : Option Inode) (argv : List (List UInt8))
    (k : Kmem) : Except Panic (Option Image × Kmem) :=
  match file with
  | none => .ok (none, k)
  | some ip =>
    let elf := ip.readi 0 ELFHDR
    if elf.length ≠ ELFHDR then .ok (none, k)
    else if field elf 0 4 ≠ ELF_MAGIC then .ok (none, k)
    else do
      let (pt, k) ← procPagetable L tf k
      match pt with
      | none => .ok (none, k)
      | some pt => execLoad L old oldsz ip argv elf pt k

/-! ### What `exec` does -/

section

variable {L : Layout} {k₀ k : Kmem} {pt : Pagetable} {n sz oldsz : ℕ} {tf : ℤ} {old : Pagetable}
  {argv : List (List UInt8)}

variable (h : Shape n (upper L tf fun _ => none) pt.leaf)

include h

/-- The pages of the user: those below the size. -/
theorem Shape.walkaddr {pa : ℤ} {va : ℕ}
    (hpa : walkaddr pt va = some pa) : pa ∈ pages pt.leaf 0 n := by
  obtain ⟨e, he, hu, rfl⟩ := walkaddr_some hpa
  by_cases hv : va / PGSIZE < n
  · exact mem_pages.mpr ⟨_, Nat.zero_le _, by omega, e, he, rfl⟩
  · rw [h.high _ (not_lt.mp hv), upper] at he
    split_ifs at he
    · cases he
      cases hu
    · cases he
      cases hu

theorem Shape.copyout {dstva : ℕ} {src : List UInt8}
    {m : Mem} : Mem.OnlyOn (InPages (· ∈ pages pt.leaf 0 n)) m (copyout pt dstva src m).2 :=
  copyout_onlyOn fun _ _ _ hpa => inPages_of_page (h.walkaddr hpa)

theorem pushArgs_onlyOn {stackbase sp : ℕ}
    {argv : List (List UInt8)} {ustack : List ℕ} {m : Mem} :
    Mem.OnlyOn (InPages (· ∈ pages pt.leaf 0 n)) m (pushArgs pt stackbase argv sp ustack m).2.2.2 := by
  induction argv generalizing sp ustack m with
  | nil => exact .rfl
  | cons s argv ih =>
    unfold pushArgs
    dsimp only
    split_ifs
    · exact .rfl
    · exact .rfl
    · exact h.copyout
    · exact h.copyout.trans ih

theorem execStack_onlyOn {sz : ℕ} {argv : List (List UInt8)} {m : Mem} :
    Mem.OnlyOn (InPages (· ∈ pages pt.leaf 0 n)) m (execStack pt sz argv m).2 := by
  have hargs : Mem.OnlyOn (InPages (· ∈ pages pt.leaf 0 n)) m (pushArgs pt (sz - PGSIZE) argv sz [] m).2.2.2 :=
    pushArgs_onlyOn h
  unfold execStack
  dsimp only
  split
  · rename_i heq
    rw [heq] at hargs
    exact hargs
  · rename_i heq
    rw [heq] at hargs
    split_ifs
    · exact hargs
    · exact hargs.trans h.copyout

/-- **`loadseg`** of a segment whose pages are mapped for the user does not panic, and writes only to pages of the
user. -/
theorem loadseg_outcome {E : Panic → Prop}
    (huser : ∀ v < n, ∀ e, pt.leaf v = some e → e.u = true) {va offset sz : ℕ} {ip : Inode} {m : Mem}
    (hsz : va + sz ≤ n * PGSIZE) :
    Outcome (fun r : Bool × Mem => Mem.OnlyOn (InPages (· ∈ pages pt.leaf 0 n)) m r.2) E
      (loadseg pt va ip offset sz m) := by
  -- the turns that are left reach no further than the segment
  have hloop : ∀ turns i m, (turns = 0 ∨ i + (turns - 1) * PGSIZE < sz) → i % PGSIZE = 0 →
      Outcome (fun r : Bool × Mem => Mem.OnlyOn (InPages (· ∈ pages pt.leaf 0 n)) m r.2) E
        (loadsegLoop pt va ip offset sz turns i m) := by
    intro turns
    induction turns with
    | zero => exact fun _ _ _ _ => .ok .rfl
    | succ turns ih =>
      intro i m hturns hi
      have hlt : va + i < n * PGSIZE := by
        rcases hturns with h0 | hlt
        · omega
        · have := Nat.zero_le ((turns + 1 - 1) * PGSIZE)
          omega
      have hv : (va + i) / PGSIZE < n := Nat.div_lt_of_lt_mul (by rwa [Nat.mul_comm])
      have hmax : va + i < MAXVA := by
        have hle := h.le
        simp only [PGSIZE, MAXVA, MAXVPN] at hlt hle ⊢
        omega
      obtain ⟨e, he⟩ := h.low _ hv
      have hpa : Vm.walkaddr pt (va + i) = some e.pa := by
        rw [Vm.walkaddr, if_neg (not_le.mpr hmax), pte_eq_leaf hmax, he]
        exact if_pos (huser _ hv e he)
      unfold loadsegLoop
      rw [hpa]
      dsimp only
      have hlen := ip.length_le ((offset + i) % 2 ^ 32) (min (sz - i) PGSIZE)
      have hwrite : Mem.OnlyOn (InPages (· ∈ pages pt.leaf 0 n)) m
          (m.write e.pa (ip.readi ((offset + i) % 2 ^ 32) (min (sz - i) PGSIZE))) :=
        Mem.onlyOn_write fun x hx hx' => inPages_of_page (h.walkaddr hpa) x hx (by omega)
      split_ifs
      · exact .ok hwrite
      · refine (ih _ _ ?_ ?_).imp fun _ hr => hwrite.trans hr
        · simp only [PGSIZE] at hturns ⊢
          omega
        · simp only [PGSIZE] at hi ⊢
          omega
  refine hloop _ 0 m ?_ rfl
  simp only [PGSIZE]
  omega

omit h

/-- A new image is being made: `sz` bytes of it are there, all for the user. -/
structure Building (L : Layout) (tf : ℤ) (k₀ : Kmem) (sz : ℕ) (pt : Pagetable) (k : Kmem) : Prop where
  /-- The leaves. -/
  shape : Shape (npages sz) (upper L tf fun _ => none) pt.leaf
  /-- The user has access. -/
  user : ∀ v < npages sz, ∀ e, pt.leaf v = some e → e.u = true
  /-- The pages. -/
  moved : Moved 0 (pt.tables + pages pt.leaf 0 (npages sz)) k₀ k

/-- The panics of `exec` that are not of `proc_freepagetable`: those of growing beyond the trapframe, for which there
must be very many pages. -/
def ExecPanic (k₀ : Kmem) (e : Panic) : Prop := GrowPanic e ∧ TFVPN < k₀.freelist.length

/-- **`uvmalloc`** of a new image. -/
theorem Building.uvmalloc {newsz : ℕ} {xperm : Bool × Bool} (h : Building L tf k₀ sz pt k)
    (hk₀ : ∀ a ∈ k₀.freelist, L.IsPage a) :
    Outcome
      (fun r : ℕ × Pagetable × Kmem => Building L tf k₀ (if r.1 = 0 then sz else r.1) r.2.1 r.2.2 ∧
        (r.1 ≠ 0 → r.1 = max sz newsz))
      (ExecPanic k₀) (uvmalloc L pt sz newsz xperm k) := by
  refine (uvmalloc_outcome (h.moved.all (by simp) hk₀).2 h.shape.le).mono ?_ ?_
  · rintro ⟨r, pt', k'⟩ ⟨hsmall, hbig⟩
    dsimp only at hbig ⊢
    rcases Nat.lt_or_ge newsz sz with hlt | hge
    · cases hsmall hlt
      rw [ite_self, max_eq_left hlt.le]
      exact ⟨h, fun _ => rfl⟩
    rcases hbig hge with ⟨rfl, hle, hg⟩ | ⟨rfl, hleaf, htook⟩
    · have hsize : npages (if r = 0 then sz else r) = npages r := by
        split_ifs with h0
        · obtain rfl : sz = r := by omega
          rfl
        · rfl
      have hold : pages pt'.leaf 0 (npages sz) = pages pt.leaf 0 (npages sz) :=
        pages_congr fun x _ hx => hg.out x (.inl (by omega))
      have hsum : npages r = npages sz + (npages r - npages sz) := by have := hg.le; omega
      refine ⟨⟨by rw [hsize]; exact h.shape.grown hg hle, ?_, ?_⟩, fun _ => (max_eq_right hge).symm⟩
      · rw [hsize]
        intro v hv e he
        by_cases hv' : v < npages sz
        · rw [hg.out v (.inl hv')] at he
          exact h.user v hv' e he
        · obtain ⟨e', he', hz, -⟩ := hg.into v (not_lt.mp hv') hv
          rw [he] at he'
          cases he'
          rw [hz]
          rfl
      · have hstep := hg.took.moved.frame (pages pt.leaf 0 (npages sz))
        have hpages : pt'.tables + pages pt'.leaf (npages sz) (npages r - npages sz) + pages pt.leaf 0 (npages sz) =
            pt'.tables + pages pt'.leaf 0 (npages r) := by
          conv_rhs => rw [hsum, pages_add, Nat.zero_add, hold]
          abel
        rw [hpages] at hstep
        rw [hsize]
        exact h.moved.trans hstep
    · refine ⟨⟨by rw [hleaf]; exact h.shape, by rw [hleaf]; exact h.user, ?_⟩, fun h0 => absurd rfl h0⟩
      have hstep := htook.moved.frame (pages pt.leaf 0 (npages sz))
      rw [add_zero] at hstep
      rw [if_pos rfl, hleaf]
      exact h.moved.trans hstep
  · rintro e ⟨he, v, hv, hv', hblock⟩
    refine ⟨he, ?_⟩
    have hcard := congrArg Multiset.card h.moved.pages
    rw [zero_add, Multiset.card_add, Multiset.card_add, card_pages fun x _ hx => h.shape.low x (by omega),
      Multiset.coe_card, Multiset.coe_card] at hcard
    have hge : TFVPN ≤ v := by
      rcases hblock with hmax | hne
      · simp only [TFVPN, MAXVPN] at hmax ⊢
        omega
      · rw [h.shape.high v hv, upper] at hne
        split_ifs at hne with h1 h2
        · simp only [TFVPN, TRAMPVPN] at h1 ⊢
          omega
        · exact h2.ge
        · exact absurd rfl hne
    omega

theorem field_lt (bs : List UInt8) (off n : ℕ) : field bs off n < 256 ^ n := by
  have hfold : ∀ l : List UInt8, l.foldr (fun b acc => b.toNat + 256 * acc) 0 < 256 ^ l.length := by
    intro l
    induction l with
    | nil => simp
    | cons b l ih =>
      have hb := b.toNat_lt
      rw [List.foldr_cons, List.length_cons, Nat.pow_succ]
      omega
  refine lt_of_lt_of_le (hfold _) (Nat.pow_le_pow_right (by decide) ?_)
  exact List.length_take_le _ _

/-- The segments of a program do not panic, whatever the headers say. -/
theorem execSegments_outcome {ip : Inode} {off : UInt32} (h : Building L tf k₀ sz pt k)
    (hk₀ : ∀ a ∈ k₀.freelist, L.IsPage a) :
    Outcome (fun r : Bool × ℕ × Pagetable × Kmem => Building L tf k₀ r.2.1 r.2.2.1 r.2.2.2) (ExecPanic k₀)
      (execSegments L ip n off sz pt k) := by
  induction n generalizing off sz pt k with
  | zero => exact .ok h
  | succ n ih =>
    unfold execSegments
    dsimp only
    split_ifs with _ _ hmem hwrap hal
    · exact .ok h
    · exact ih h
    · exact .ok h
    · exact .ok h
    · exact .ok h
    · refine Outcome.bind (h.uvmalloc hk₀) ?_
      rintro ⟨sz1, pt1, k1⟩ ⟨hbuild, hsz1⟩
      dsimp only at hbuild hsz1 ⊢
      split_ifs at hbuild ⊢ with h0
      · exact .ok hbuild
      · have hload : field (ip.readi off.toNat PROGHDR) 16 8 + field (ip.readi off.toNat PROGHDR) 32 8 % 2 ^ 32 ≤
            npages sz1 * PGSIZE := by
          have hv := field_lt (ip.readi off.toNat PROGHDR) 16 8
          have hm := field_lt (ip.readi off.toNat PROGHDR) 40 8
          have hmax := hsz1 h0
          have hmod := Nat.mod_le (field (ip.readi off.toNat PROGHDR) 32 8) (2 ^ 32)
          have hround : sz1 ≤ npages sz1 * PGSIZE := by
            simp only [npages_eq, PGSIZE]
            omega
          omega
        refine Outcome.bind (loadseg_outcome hbuild.shape hbuild.user hload) ?_
        rintro ⟨loaded, m⟩ hm
        have hbuild' : Building L tf k₀ sz1 pt1 { k1 with mem := m } :=
          ⟨hbuild.shape, hbuild.user, hbuild.moved.write fun x hx => hm x fun hin =>
            hx (hin.mono fun _ ha => Multiset.mem_add.mpr (.inr ha))⟩
        dsimp only
        split_ifs
        · exact .ok hbuild'
        · exact ih hbuild'

/-- What `exec` leaves when it succeeds. The stack is the one that `execStack` makes, and freeing the old page
table has not touched it, if no page was there twice. -/
structure NewImage (L : Layout) (tf : ℤ) (old : Pagetable) (oldsz : ℕ) (argv : List (List UInt8)) (k : Kmem) (i : Image)
    (k' : Kmem) : Prop where
  /-- The number of arguments. -/
  argc : i.argc = argv.length
  /-- The size: at least the guard page and the stack. -/
  sz : ∃ n, i.sz = (n + 2) * PGSIZE
  /-- The leaves. -/
  shape : Shape (npages i.sz) (upper L tf fun _ => none) i.pagetable.leaf
  /-- The pages. -/
  moved : Moved (old.tables + pages old.leaf 0 (npages oldsz))
    (i.pagetable.tables + pages i.pagetable.leaf 0 (npages i.sz)) k k'
  /-- The stack. -/
  stack : ∃ m, (execStack i.pagetable i.sz argv m).1 = true ∧
    ((old.tables + pages old.leaf 0 (npages oldsz) + (k.freelist : Multiset ℤ)).Nodup →
      ∀ a ∈ pages i.pagetable.leaf 0 (npages i.sz), Mem.EqOn a PGSIZE (execStack i.pagetable i.sz argv m).2 k'.mem)

/-- The outcome of `exec`: a new image, or none, with all pages given back. -/
def ExecResult (L : Layout) (tf : ℤ) (old : Pagetable) (oldsz : ℕ) (argv : List (List UInt8)) (k : Kmem)
    (r : Option Image × Kmem) : Prop :=
  (r.1 = none → Moved 0 0 k r.2) ∧ ∀ i, r.1 = some i → NewImage L tf old oldsz argv k i r.2

theorem execBad_outcome {E : Panic → Prop} (hs : Shape (npages sz) (upper L tf fun _ => none) pt.leaf)
    (hm : Moved 0 (pt.tables + pages pt.leaf 0 (npages sz)) k₀ k) (hk₀ : ∀ a ∈ k₀.freelist, L.IsPage a) :
    Outcome (ExecResult L tf old oldsz argv k₀) E (execBad L pt sz k) := by
  refine Outcome.bind ((procFreepagetable_outcome hs (hm.all (by simp) hk₀).1).mono (fun _ hr => hr) ?_)
    fun k' hk' => .ok ⟨fun _ => hm.trans hk', nofun⟩
  rintro e ⟨-, v, hv⟩
  exact absurd rfl hv

/-- What `exec` does from the new page table on. It panics with "freewalk: leaf" only if the old page
table has a leaf besides the process's own. -/
theorem execLoad_outcome {E : ℕ → Option Pte} {ip : Inode}
    {elf : List UInt8} (hold : Shape (npages oldsz) (upper L tf E) old.leaf)
    (hpages : ∀ a ∈ old.tables + pages old.leaf 0 (npages oldsz) + (k₀.freelist : Multiset ℤ), L.IsPage a)
    (hpt : pt.leaf = upper L tf fun _ => none) (hm : Moved 0 pt.tables k₀ k) :
    Outcome (ExecResult L tf old oldsz argv k₀) (fun e => ExecPanic k₀ e ∨ e = .freewalkLeaf ∧ ∃ v, E v ≠ none)
      (execLoad L old oldsz ip argv elf pt k) := by
  have hk0 : ∀ a ∈ k₀.freelist, L.IsPage a := fun a ha => hpages a (Multiset.mem_add.mpr (.inr ha))
  have hzero : npages 0 = 0 := by decide
  have hbuild : Building L tf k₀ 0 pt k := by
    refine ⟨?_, ?_, ?_⟩
    · rw [hzero, hpt]
      exact .empty _
    · rw [hzero]
      intro v hv
      exact absurd hv v.not_lt_zero
    · rwa [hzero, pages, add_zero]
  unfold execLoad
  refine Outcome.bind ((execSegments_outcome hbuild hk0).mono (fun _ hr => hr) fun _ => .inl) ?_
  rintro ⟨loaded, sz, pt1, k1⟩ hbuild₁
  dsimp only at hbuild₁ ⊢
  split_ifs
  · exact execBad_outcome hbuild₁.shape hbuild₁.moved hk0
  have hround : npages (pgroundup sz) = npages sz := by
    rw [pgroundup_eq, npages_mul]
  have hbuild₁' : Building L tf k₀ (pgroundup sz) pt1 k1 := by
    obtain ⟨h1, h2, h3⟩ := hbuild₁
    exact ⟨by rwa [hround], by rwa [hround], by rwa [hround]⟩
  refine Outcome.bind ((hbuild₁'.uvmalloc hk0).mono (fun _ hr => hr) fun _ => .inl) ?_
  rintro ⟨sz1, pt2, k2⟩ ⟨hbuild₂, hsz1⟩
  dsimp only at hbuild₂ hsz1 ⊢
  split_ifs at hbuild₂ ⊢ with h0
  · exact execBad_outcome hbuild₂.shape hbuild₂.moved hk0
  -- the guard page is the first of the two pages just allocated
  have hsz1 := hsz1 h0
  rw [max_eq_right (by omega), pgroundup_eq, ← Nat.add_mul] at hsz1
  have hguard : sz1 - 2 * PGSIZE = npages sz * PGSIZE := by rw [hsz1, Nat.add_mul]; omega
  have hlt : npages sz < npages sz1 := by rw [hsz1, npages_mul]; omega
  obtain ⟨e, he⟩ := hbuild₂.shape.low _ hlt
  rw [hguard]
  refine Outcome.bind (uvmclear_outcome (lt_of_lt_of_le hlt hbuild₂.shape.le) he) fun pt3 hpt3 => ?_
  obtain ⟨ht3, hleaf₃⟩ := hpt3
  have hshape₃ : Shape (npages sz1) (upper L tf fun _ => none) pt3.leaf := by
    refine ⟨fun v hv => ?_, fun v hv => ?_, hbuild₂.shape.apart, hbuild₂.shape.le⟩
    · rw [hleaf₃]
      by_cases hvg : v = npages sz
      · rw [hvg, Function.update_self]
        exact ⟨_, rfl⟩
      · rw [Function.update_of_ne hvg]
        exact hbuild₂.shape.low v hv
    · rw [hleaf₃, Function.update_of_ne (by omega), hbuild₂.shape.high v hv]
  have hpages₃ : pages pt3.leaf 0 (npages sz1) = pages pt2.leaf 0 (npages sz1) := by
    rw [hleaf₃]
    refine pages_update he ?_ 0 (npages sz1)
    rfl
  have hstack : Mem.OnlyOn (InPages (· ∈ pages pt3.leaf 0 (npages sz1))) k2.mem (execStack pt3 sz1 argv k2.mem).2 :=
    execStack_onlyOn hshape₃
  have hmoved₃ : Moved 0 (pt3.tables + pages pt3.leaf 0 (npages sz1)) k₀
      { k2 with mem := (execStack pt3 sz1 argv k2.mem).2 } := by
    have hm2 := hbuild₂.moved
    rw [← ht3, ← hpages₃] at hm2
    exact hm2.write fun x hx => hstack x fun hin => hx (hin.mono fun _ ha => Multiset.mem_add.mpr (.inr ha))
  split_ifs with hok
  · exact execBad_outcome hshape₃ hmoved₃ hk0
  refine Outcome.bind ((procFreepagetable_outcome hold fun a ha => hpages a (Multiset.mem_add.mpr (.inl ha))).mono
    (fun _ hr => hr) fun _ => .inr) fun k5 hk5 => .ok ⟨by rintro ⟨⟩, ?_⟩
  rintro _ ⟨⟩
  have hboth := (Moved.refl (F := old.tables + pages old.leaf 0 (npages oldsz))).take hmoved₃
  rw [add_comm (pt3.tables + _)] at hboth
  refine ⟨rfl, ⟨npages sz, hsz1⟩, hshape₃, hboth.give hk5, k2.mem, by simpa using hok, fun hnd a ha => ?_⟩
  -- a page of the new image is neither free nor of the old one
  have hpool := hmoved₃.pages
  rw [zero_add] at hpool
  rw [hpool] at hnd hpages
  have hmem : a ∈ pt3.tables + pages pt3.leaf 0 (npages sz1) := Multiset.mem_add.mpr (.inr ha)
  obtain ⟨-, hrest, hdis⟩ := Multiset.nodup_add.mp hnd
  refine hk5.eqOn (fun b hb => (hpages b ?_).1) (hpages a ?_).1 fun hin => ?_
  · rcases Multiset.mem_add.mp hb with hb | hb
    · exact Multiset.mem_add.mpr (.inl hb)
    · exact Multiset.mem_add.mpr (.inr (Multiset.mem_add.mpr (.inr hb)))
  · exact Multiset.mem_add.mpr (.inr (Multiset.mem_add.mpr (.inl hmem)))
  · rcases Multiset.mem_add.mp hin with hin | hin
    · exact Multiset.disjoint_left.mp hdis hin (Multiset.mem_add.mpr (.inl hmem))
    · exact Multiset.disjoint_left.mp (Multiset.nodup_add.mp hrest).2.2 hmem hin

/-- **What `exec` does**, for every file. -/
theorem execImage_outcome {E : ℕ → Option Pte} {file : Option Inode} (hold : Shape (npages oldsz) (upper L tf E) old.leaf)
    (hpages : ∀ a ∈ old.tables + pages old.leaf 0 (npages oldsz) + (k.freelist : Multiset ℤ), L.IsPage a) :
    Outcome (ExecResult L tf old oldsz argv k) (fun e => ExecPanic k e ∨ e = .freewalkLeaf ∧ ∃ v, E v ≠ none)
      (execImage L tf old oldsz file argv k) := by
  unfold execImage
  cases file with
  | none => exact .ok ⟨fun _ => .refl, nofun⟩
  | some ip =>
    dsimp only
    split_ifs
    · exact .ok ⟨fun _ => .refl, nofun⟩
    · exact .ok ⟨fun _ => .refl, nofun⟩
    · refine Outcome.bind (procPagetable_outcome fun a ha => hpages a (Multiset.mem_add.mpr (.inr ha))) ?_
      rintro ⟨pt, k'⟩ ⟨hnone, hsome⟩
      cases pt with
      | none => exact .ok ⟨fun _ => hnone rfl, nofun⟩
      | some pt =>
        obtain ⟨hm, hleaf⟩ := hsome pt rfl
        exact execLoad_outcome hold hpages hleaf hm

end

end Xv6Shmem.Vm
