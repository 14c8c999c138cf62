import Xv6Shmem.Files.Table
import Mathlib.Algebra.Group.Pi.Lemmas
import Mathlib.Data.Fintype.Prod

/-!
# References to open files

The count of a file is the number of descriptors that refer to it. Inside of a call it is off by
what the call has in hand: a file that was allocated and has no descriptor yet is one more, a
descriptor that was made before the file was counted is one less. Each function says how it changes
what is in hand, and each call ends with nothing in hand.

## What is proved

* a lemma for each function, and `Ok.call` from them — no call goes wrong, and each ends with
  nothing in hand.
* `file_table` — the counts, the types, the ends of pipes and their pages, after any calls.
-/

namespace Xv6Shmem.Files

open Function Kernel LTS Tally

/-- The number of descriptors that refer to file `f`. -/
def FileState.slots (s : FileState) (f : FileNo) : ℕ := tally fun x : Slot × Fd => decide (s.ofile x.1 x.2 = some f)

/-- File `f` is the end of the pipe in page `pi` for writing, or for reading. -/
def FileState.IsEnd (s : FileState) (f : FileNo) (pi : ℕ) (w : Bool) : Prop :=
  (s.file f).type = .pipe ∧ (s.file f).pipe = pi ∧ (s.file f).writable = w

/-- `writeopen`, or `readopen`. -/
def PipeEnds.isOpen (e : PipeEnds) (w : Bool) : Bool := if w then e.writeopen else e.readopen

/-- Page `pi` holds a pipe with this end open. -/
def FileState.isOpen (s : FileState) (pi : ℕ) (w : Bool) : Bool := (s.pipe pi).any fun e => e.isOpen w

/-- The files are in order, with `e` references to each in hand. -/
structure Ok (s : FileState) (e : FileNo → ℤ) : Prop where
  /-- The counts. -/
  refs : ∀ f, ((s.file f).ref : ℤ) = s.slots f + e f
  /-- A file that is not in use has no type. -/
  idle : ∀ f, (s.file f).ref = 0 → (s.file f).type = .none
  /-- A pipe has one file for each end. -/
  sole : ∀ f f' pi w, s.IsEnd f pi w → s.IsEnd f' pi w → f = f'
  /-- An end is open if it has a file. -/
  ends : ∀ pi w, s.isOpen pi w = true ↔ ∃ f, s.IsEnd f pi w
  /-- A pipe with no end open is gone. -/
  used : ∀ pi, (s.pipe pi).isSome = true → ∃ w, s.isOpen pi w = true
  /-- Every page that was handed out is there or was given back, once. -/
  pages : ∀ pi, s.kallocs pi = s.kfrees pi + (s.pipe pi).isSome.toNat
  /-- Only processes have descriptors. -/
  closed : ∀ p, s.life p ≠ .live → ∀ fd, s.ofile p fd = none

section Functions

variable {s t : FileState} {e : FileNo → ℤ} {p : Slot} {fd : Fd} {f : FileNo} {pi : ℕ}

/-! ### Descriptors -/

theorem slots_set (h : s.ofile p fd = none) (g : FileNo) :
    (s.setOfile p fd (some f)).slots g = s.slots g + if g = f then 1 else 0 := by
  have hother : ∀ x : Slot × Fd, x ≠ (p, fd) → (s.setOfile p fd (some f)).ofile x.1 x.2 = s.ofile x.1 x.2 := by
    rintro ⟨q, k⟩ hx
    by_cases hq : q = p
    · subst hq
      have hk : k ≠ fd := fun hk => hx (by rw [hk])
      simp [FileState.setOfile, hk]
    · simp [FileState.setOfile, hq]
  by_cases hg : g = f
  · subst hg
    rw [if_pos rfl]
    refine tally_succ (p := (p, fd)) (by simp [h]) (by simp [FileState.setOfile]) fun x hx => ?_
    rw [hother x hx]
  · rw [if_neg hg, Nat.add_zero]
    refine tally_congr fun x => ?_
    by_cases hx : x = (p, fd)
    · subst hx
      simp [FileState.setOfile, h, Ne.symm hg]
    · rw [hother x hx]

theorem slots_clear (h : s.ofile p fd = some f) (g : FileNo) :
    s.slots g = (s.setOfile p fd none).slots g + if g = f then 1 else 0 := by
  have hback : (s.setOfile p fd none).setOfile p fd (some f) = s := by
    have hofile : update s.ofile p (update (s.ofile p) fd (some f)) = s.ofile := by
      rw [← h, update_eq_self, update_eq_self]
    simp [FileState.setOfile, hofile]
  have hnone : (s.setOfile p fd none).ofile p fd = none := by simp [FileState.setOfile]
  have hset := slots_set (f := f) hnone g
  rwa [hback] at hset

theorem slots_pos (h : s.ofile p fd = some f) : 0 < s.slots f :=
  tally_pos_of (p := (p, fd)) (by simpa using h)

theorem Ok.of_ofile (h : Ok s e) {e' : FileNo → ℤ} (hfile : t.file = s.file) (hpipe : t.pipe = s.pipe)
    (hka : t.kallocs = s.kallocs) (hkf : t.kfrees = s.kfrees)
    (hrefs : ∀ g, (s.slots g : ℤ) + e g = t.slots g + e' g)
    (hclosed : ∀ p, t.life p ≠ .live → ∀ fd, t.ofile p fd = none) : Ok t e' := by
  have hend : ∀ f pi w, t.IsEnd f pi w ↔ s.IsEnd f pi w := by
    intro f pi w
    simp [FileState.IsEnd, hfile]
  have hopen : ∀ pi w, t.isOpen pi w = s.isOpen pi w := by
    intro pi w
    simp [FileState.isOpen, hpipe]
  refine ⟨fun g => ?_, fun g hg => ?_, fun f f' pi w hf hf' => ?_, fun pi w => ?_, fun pi hpi => ?_, fun pi => ?_, hclosed⟩
  · rw [hfile, h.refs g]
    exact hrefs g
  · rw [hfile] at hg ⊢
    exact h.idle g hg
  · exact h.sole f f' pi w ((hend f pi w).mp hf) ((hend f' pi w).mp hf')
  · rw [hopen, h.ends pi w]
    simp only [hend]
  · rw [hpipe] at hpi
    obtain ⟨w, hw⟩ := h.used pi hpi
    exact ⟨w, by rw [hopen]; exact hw⟩
  · rw [hka, hkf, hpipe]
    exact h.pages pi

theorem Ok.setOfile (h : Ok s e) (hp : s.life p = .live) (hfd : s.ofile p fd = none) (f : FileNo) :
    Ok (s.setOfile p fd (some f)) (e - Pi.single f 1) := by
  refine h.of_ofile rfl rfl rfl rfl (fun g => ?_) fun q hq k => ?_
  · rw [slots_set hfd, Pi.sub_apply, Pi.single_apply]
    push_cast
    omega
  · have hqp : q ≠ p := by
      rintro rfl
      exact hq hp
    simpa [FileState.setOfile, hqp] using h.closed q hq k

theorem Ok.clearOfile (h : Ok s e) (hfd : s.ofile p fd = some f) : Ok (s.setOfile p fd none) (e + Pi.single f 1) := by
  refine h.of_ofile rfl rfl rfl rfl (fun g => ?_) fun q hq k => ?_
  · rw [slots_clear hfd, Pi.add_apply, Pi.single_apply]
    push_cast
    omega
  · by_cases hqp : q = p
    · subst hqp
      by_cases hk : k = fd
      · simp [FileState.setOfile, hk]
      · simpa [FileState.setOfile, hk] using h.closed q hq k
    · simpa [FileState.setOfile, hqp] using h.closed q hq k

/-! ### Files -/

/-- **A file is changed** and stays the end of a pipe that it is. -/
theorem Ok.setFile (h : Ok s e) {x : File} (hidle : x.ref = 0 → x.type = .none)
    (hend : ∀ pi w, (x.type = .pipe ∧ x.pipe = pi ∧ x.writable = w) ↔ s.IsEnd f pi w) {d : ℤ}
    (hd : (x.ref : ℤ) = (s.file f).ref + d) : Ok (s.setFile f x) (e + Pi.single f d) := by
  have hself : (s.setFile f x).file f = x := update_self ..
  have hne : ∀ g, g ≠ f → (s.setFile f x).file g = s.file g := fun g hg => update_of_ne hg ..
  have hend' : ∀ g pi w, (s.setFile f x).IsEnd g pi w ↔ s.IsEnd g pi w := by
    intro g pi w
    by_cases hg : g = f
    · subst hg
      rw [FileState.IsEnd, hself]
      exact hend pi w
    · rw [FileState.IsEnd, hne g hg, FileState.IsEnd]
  refine ⟨fun g => ?_, fun g hg => ?_, fun g g' pi w hg hg' => ?_, fun pi w => ?_, h.used, h.pages, h.closed⟩
  · change _ = (s.slots g : ℤ) + _
    rw [Pi.add_apply, Pi.single_apply]
    by_cases hg : g = f
    · subst hg
      rw [hself, if_pos rfl, hd, h.refs g]
      omega
    · rw [hne g hg, if_neg hg, h.refs g]
      omega
  · by_cases hgf : g = f
    · subst hgf
      rw [hself] at hg ⊢
      exact hidle hg
    · rw [hne g hgf] at hg ⊢
      exact h.idle g hg
  · exact h.sole g g' pi w ((hend' g pi w).mp hg) ((hend' g' pi w).mp hg')
  · change s.isOpen pi w = true ↔ _
    rw [h.ends pi w]
    simp only [hend']

theorem Ok.filealloc (h : Ok s e) (ha : Files.filealloc s = some (f, t)) :
    Ok t (e + Pi.single f 1) ∧ (s.file f).ref = 0 ∧ t = s.setFile f { s.file f with ref := 1 } := by
  obtain ⟨f', hf, heq⟩ := Option.map_eq_some_iff.mp ha
  cases heq
  have href : (s.file f).ref = 0 := by simpa using List.find?_some hf
  exact ⟨h.setFile (x := { s.file f with ref := 1 }) (by simp) (fun _ _ => Iff.rfl) (by simp [href]), href, rfl⟩

theorem Ok.filedup (h : Ok s e) (href : 0 < (s.file f).ref) :
    ∃ t, Files.filedup s f = .ok t ∧ Ok t (e + Pi.single f 1) ∧ t.ofile = s.ofile ∧ t.life = s.life := by
  refine ⟨_, if_neg (by omega), h.setFile (x := { s.file f with ref := (s.file f).ref + 1 }) (by simp) (fun _ _ => Iff.rfl)
    (by push_cast; rfl), rfl, rfl⟩

theorem PipeEnds.isOpen_close (x : PipeEnds) (w w' : Bool) : (x.close w).isOpen w' = (x.isOpen w' && w' != w) := by
  cases w <;> cases w' <;> simp [PipeEnds.close, PipeEnds.isOpen]

theorem isOpen_pipeclose {x : PipeEnds} (w : Bool) (hx : s.pipe pi = some x) {u : FileState}
    (hu : Files.pipeclose s pi w = .ok u) (pi' : ℕ) (w' : Bool) :
    u.isOpen pi' w' = if pi' = pi then (x.close w).isOpen w' else s.isOpen pi' w' := by
  simp only [Files.pipeclose, hx, Except.ok.injEq] at hu
  subst hu
  split
  · rename_i hboth
    by_cases hpi : pi' = pi
    · cases w' <;> simp [FileState.isOpen, FileState.kfree, FileState.setPipe, hpi, PipeEnds.isOpen, hboth]
    · simp [FileState.isOpen, FileState.kfree, FileState.setPipe, hpi]
  · by_cases hpi : pi' = pi
    · simp [FileState.isOpen, FileState.setPipe, hpi]
    · simp [FileState.isOpen, FileState.setPipe, hpi]

theorem pages_pipeclose {x : PipeEnds} {w : Bool} (hx : s.pipe pi = some x) {u : FileState}
    (hu : Files.pipeclose s pi w = .ok u) (hpages : ∀ pi, s.kallocs pi = s.kfrees pi + (s.pipe pi).isSome.toNat) :
    (∀ pi', u.kallocs pi' = u.kfrees pi' + (u.pipe pi').isSome.toNat) ∧
      (∀ pi', pi' ≠ pi → u.pipe pi' = s.pipe pi') ∧
      ((u.pipe pi).isSome = true → ∃ w', (x.close w).isOpen w' = true) := by
  simp only [Files.pipeclose, hx, Except.ok.injEq] at hu
  subst hu
  split
  · refine ⟨fun pi' => ?_, fun pi' hne => ?_, fun hs => ?_⟩
    · by_cases hpi : pi' = pi
      · subst hpi
        simpa [FileState.kfree, FileState.setPipe, hx] using hpages pi'
      · simpa [FileState.kfree, FileState.setPipe, hpi] using hpages pi'
    · simp [FileState.kfree, FileState.setPipe, hne]
    · simp [FileState.kfree, FileState.setPipe] at hs
  · rename_i hboth
    refine ⟨fun pi' => ?_, fun pi' hne => ?_, fun _ => ?_⟩
    · by_cases hpi : pi' = pi
      · subst hpi
        simpa [FileState.setPipe, hx] using hpages pi'
      · simpa [FileState.setPipe, hpi] using hpages pi'
    · simp [FileState.setPipe, hne]
    · by_cases hr : (x.close w).readopen = true
      · exact ⟨false, by simpa [PipeEnds.isOpen] using hr⟩
      · refine ⟨true, ?_⟩
        simpa [PipeEnds.isOpen, hr] using hboth

/-- **`pipeclose`** by the last reference to an end: the end is closed, and the page given back if the other one is. -/
theorem Ok.pipeclose (h : Ok s e) {w : Bool} (hf : s.IsEnd f pi w) (href : (s.file f).ref = 1) :
    ∃ t, Files.pipeclose (s.setFile f { s.file f with ref := 0, type := .none }) pi w = .ok t ∧
      Ok t (e - Pi.single f 1) ∧ t.ofile = s.ofile ∧ t.life = s.life := by
  obtain ⟨x, hx, hw⟩ : ∃ x, s.pipe pi = some x ∧ x.isOpen w = true := by
    simpa [FileState.isOpen, Option.any_eq_true] using (h.ends pi w).mpr ⟨f, hf⟩
  generalize hs0 : s.setFile f { s.file f with ref := 0, type := .none } = s0
  have hx0 : s0.pipe pi = some x := by rw [← hs0]; exact hx
  obtain ⟨t, ht⟩ : ∃ t, Files.pipeclose s0 pi w = .ok t := by
    simp [Files.pipeclose, hx0]
  have hkeep : t.file = s0.file ∧ t.ofile = s0.ofile ∧ t.life = s0.life := by
    have ht' := ht
    simp only [Files.pipeclose, hx0, Except.ok.injEq] at ht'
    subst ht'
    split <;> exact ⟨rfl, rfl, rfl⟩
  obtain ⟨hfile, hofile, hlife⟩ := hkeep
  have hopen := isOpen_pipeclose w hx0 ht
  obtain ⟨hpages, hother, hused⟩ := pages_pipeclose hx0 ht (by rw [← hs0]; exact h.pages)
  have hself : t.file f = { s.file f with ref := 0, type := .none } := by
    rw [hfile, ← hs0]
    exact update_self ..
  have hne : ∀ g, g ≠ f → t.file g = s.file g := by
    intro g hg
    rw [hfile, ← hs0]
    exact update_of_ne hg ..
  have hend : ∀ g pi' w', t.IsEnd g pi' w' ↔ g ≠ f ∧ s.IsEnd g pi' w' := by
    intro g pi' w'
    by_cases hg : g = f
    · subst hg
      simp [FileState.IsEnd, hself]
    · simp [FileState.IsEnd, hne g hg, hg]
  have hofile' : t.ofile = s.ofile := by rw [hofile, ← hs0]; rfl
  have hlife' : t.life = s.life := by rw [hlife, ← hs0]; rfl
  have hopen₀ : ∀ pi' w', s0.isOpen pi' w' = s.isOpen pi' w' := by
    intro pi' w'
    rw [← hs0]
    rfl
  refine ⟨t, ht, ⟨fun g => ?_, fun g hg => ?_, fun g g' pi' w' hg hg' => ?_, fun pi' w' => ?_, fun pi' hpi' => ?_, hpages,
    fun p hp fd => ?_⟩, hofile', hlife'⟩
  · have hslots : t.slots g = s.slots g := by simp [FileState.slots, hofile']
    rw [hslots, Pi.sub_apply, Pi.single_apply]
    have hrefs := h.refs g
    by_cases hg : g = f
    · subst hg
      rw [href] at hrefs
      rw [hself, if_pos rfl]
      push_cast at hrefs ⊢
      omega
    · rw [hne g hg, if_neg hg, hrefs]
      omega
  · by_cases hgf : g = f
    · subst hgf
      rw [hself]
    · rw [hne g hgf] at hg ⊢
      exact h.idle g hg
  · exact h.sole g g' pi' w' ((hend g pi' w').mp hg).2 ((hend g' pi' w').mp hg').2
  · rw [hopen]
    by_cases hpi : pi' = pi
    · subst hpi
      rw [if_pos rfl, PipeEnds.isOpen_close]
      have hxw : x.isOpen w' = s.isOpen pi' w' := by simp [FileState.isOpen, hx]
      rw [hxw, Bool.and_eq_true, h.ends pi' w']
      constructor
      · rintro ⟨⟨g, hg⟩, hww⟩
        refine ⟨g, (hend g pi' w').mpr ⟨?_, hg⟩⟩
        rintro rfl
        simp [← hg.2.2, hf.2.2] at hww
      · rintro ⟨g, hg⟩
        obtain ⟨hgf, hg⟩ := (hend g pi' w').mp hg
        refine ⟨⟨g, hg⟩, ?_⟩
        simp only [bne_iff_ne, ne_eq]
        rintro rfl
        exact hgf (h.sole g f pi' w' hg hf)
    · rw [if_neg hpi, hopen₀, h.ends pi' w']
      refine exists_congr fun g => ?_
      rw [hend]
      refine ⟨fun hg => ⟨?_, hg⟩, And.right⟩
      rintro rfl
      exact hpi (hg.2.1.symm.trans hf.2.1)
  · by_cases hpi : pi' = pi
    · subst hpi
      obtain ⟨w', hw'⟩ := hused hpi'
      exact ⟨w', by rw [hopen, if_pos rfl]; exact hw'⟩
    · rw [hother pi' hpi, ← hs0] at hpi'
      obtain ⟨w', hw'⟩ := h.used pi' hpi'
      exact ⟨w', by rw [hopen, if_neg hpi, hopen₀]; exact hw'⟩
  · rw [hlife'] at hp
    rw [hofile']
    exact h.closed p hp fd

/-- **`fileclose`** takes a reference out of hand. -/
theorem Ok.fileclose (h : Ok s e) (href : 0 < (s.file f).ref) :
    ∃ t, Files.fileclose s f = .ok t ∧ Ok t (e - Pi.single f 1) ∧ t.ofile = s.ofile ∧ t.life = s.life := by
  unfold Files.fileclose
  dsimp only
  rw [if_neg (by omega)]
  split
  · have hOk := h.setFile (f := f) (x := { s.file f with ref := (s.file f).ref - 1 }) (by simp; omega) (fun _ _ => Iff.rfl)
      (d := -1) (by push_cast; omega)
    rw [Pi.single_neg, ← sub_eq_add_neg] at hOk
    exact ⟨_, rfl, hOk, rfl, rfl⟩
  · have hone : (s.file f).ref = 1 := by omega
    split
    · rename_i htype
      exact h.pipeclose (f := f) ⟨htype, rfl, rfl⟩ hone
    · rename_i htype
      have hOk := h.setFile (f := f) (x := { s.file f with ref := 0, type := .none }) (fun _ => rfl)
        (fun pi w => by simp [FileState.IsEnd, htype]) (d := -1) (by simp [hone])
      rw [Pi.single_neg, ← sub_eq_add_neg] at hOk
      exact ⟨_, rfl, hOk, rfl, rfl⟩

theorem Ok.ref_pos (h : Ok s e) (he : 0 < e f) : 0 < (s.file f).ref := by
  have hrefs := h.refs f
  omega

theorem Ok.ref_pos_of_ofile (h : Ok s 0) (hf : s.ofile p fd = some f) : 0 < (s.file f).ref := by
  have hrefs := h.refs f
  have hpos := slots_pos hf
  rw [Pi.zero_apply] at hrefs
  omega

theorem Ok.fdalloc (h : Ok s e) (hp : s.life p = .live) (ha : Files.fdalloc s p f = some (fd, t)) :
    Ok t (e - Pi.single f 1) ∧ s.ofile p fd = none ∧ t = s.setOfile p fd (some f) := by
  obtain ⟨fd', hfd, heq⟩ := Option.map_eq_some_iff.mp ha
  cases heq
  have hnone : s.ofile p fd = none := by simpa using List.find?_some hfd
  exact ⟨h.setOfile hp hnone f, hnone, rfl⟩

theorem ofile_of_argfd {n : ℤ} (ha : argfd s p n = some (fd, f)) : s.ofile p fd = some f := by
  unfold argfd at ha
  split at ha
  · obtain ⟨f', hf, heq⟩ := Option.map_eq_some_iff.mp ha
    cases heq
    exact hf
  · cases ha

/-! ### Calls -/

/-- A call ends with nothing in hand, and the processes are those that there were. -/
def Ends (s : FileState) (x : Except Fault (ℤ × FileState)) : Prop := ∃ r t, x = .ok (r, t) ∧ Ok t 0 ∧ t.life = s.life

variable (h : Ok s 0)

include h

theorem Ok.openFile (hp : s.life p = .live) (o : Option Opened) : Ends s (Files.openFile s p o) := by
  cases o with
  | none => exact ⟨-1, s, rfl, h, rfl⟩
  | some o =>
    unfold Files.openFile
    cases ha : Files.filealloc s with
    | none => exact ⟨-1, s, rfl, h, rfl⟩
    | some x =>
      obtain ⟨f, s1⟩ := x
      obtain ⟨h1, href, rfl⟩ := h.filealloc ha
      rw [zero_add] at h1
      dsimp only
      cases hd : Files.fdalloc (s.setFile f { s.file f with ref := 1 }) p f with
      | none =>
        obtain ⟨t, ht, hOk, -, hlife⟩ := h1.fileclose (h1.ref_pos (f := f) (by simp))
        dsimp only
        rw [ht]
        rw [sub_self] at hOk
        exact ⟨-1, t, rfl, hOk, hlife⟩
      | some y =>
        obtain ⟨fd, s2⟩ := y
        obtain ⟨h2, -, rfl⟩ := h1.fdalloc hp hd
        rw [sub_self] at h2
        refine ⟨fd, _, rfl, ?_, rfl⟩
        have hfile : ((s.setFile f { s.file f with ref := 1 }).setOfile p fd (some f)).file f =
            { s.file f with ref := 1 } := update_self ..
        have hnone := h.idle f href
        rw [hfile]
        have hOk := h2.setFile (f := f) (x := o.file { s.file f with ref := 1 }) (d := 0) ?_ ?_ ?_
        · rwa [Pi.single_zero, add_zero] at hOk
        · intro h0
          unfold Opened.file at h0
          split at h0 <;> cases h0
        · intro pi w
          rw [FileState.IsEnd, hfile, hnone]
          unfold Opened.file
          split <;> simp
        · rw [hfile]
          unfold Opened.file
          split <;> rfl

theorem Ok.dup (hp : s.life p = .live) (n : ℤ) : Ends s (Files.dup s p n) := by
  unfold Files.dup
  cases ha : argfd s p n with
  | none => exact ⟨-1, s, rfl, h, rfl⟩
  | some x =>
    obtain ⟨fd, f⟩ := x
    have hpos := h.ref_pos_of_ofile (ofile_of_argfd ha)
    dsimp only
    cases hd : Files.fdalloc s p f with
    | none => exact ⟨-1, s, rfl, h, rfl⟩
    | some y =>
      obtain ⟨fd', s1⟩ := y
      obtain ⟨h1, -, rfl⟩ := h.fdalloc hp hd
      obtain ⟨t, ht, hOk, -, hlife⟩ := h1.filedup (f := f) hpos
      dsimp only
      rw [ht]
      rw [zero_sub, neg_add_cancel] at hOk
      exact ⟨fd', t, rfl, hOk, hlife⟩

theorem Ok.close (n : ℤ) : Ends s (Files.close s p n) := by
  unfold Files.close
  cases ha : argfd s p n with
  | none => exact ⟨-1, s, rfl, h, rfl⟩
  | some x =>
    obtain ⟨fd, f⟩ := x
    have hfd := ofile_of_argfd ha
    have hpos := h.ref_pos_of_ofile hfd
    obtain ⟨t, ht, hOk, -, hlife⟩ := (h.clearOfile hfd).fileclose (f := f) hpos
    dsimp only
    rw [ht]
    rw [add_sub_cancel_right] at hOk
    exact ⟨0, t, rfl, hOk, hlife⟩

theorem Ok.pipeFiles :
    (∃ t, Files.pipeFiles s = .ok (none, t) ∧ Ok t 0 ∧ t.life = s.life) ∨
    ∃ f0 f1 t, Files.pipeFiles s = .ok (some (f0, f1), t) ∧ Ok t (Pi.single f0 1 + Pi.single f1 1) ∧ f0 ≠ f1 ∧
      (t.file f0).type = .none ∧ (t.file f1).type = .none ∧ t.life = s.life ∧ t.pipe = s.pipe := by
  unfold Files.pipeFiles
  cases ha : Files.filealloc s with
  | none => exact .inl ⟨s, rfl, h, rfl⟩
  | some x =>
    obtain ⟨f0, s1⟩ := x
    obtain ⟨h1, href₀, rfl⟩ := h.filealloc ha
    rw [zero_add] at h1
    dsimp only
    cases hb : Files.filealloc (s.setFile f0 { s.file f0 with ref := 1 }) with
    | none =>
      obtain ⟨t, ht, hOk, -, hlife⟩ := h1.fileclose (h1.ref_pos (f := f0) (by simp))
      dsimp only
      rw [ht]
      rw [sub_self] at hOk
      exact .inl ⟨t, rfl, hOk, hlife⟩
    | some y =>
      obtain ⟨f1, s2⟩ := y
      obtain ⟨h2, href₁, rfl⟩ := h1.filealloc hb
      have hne : f0 ≠ f1 := by
        rintro rfl
        simp [FileState.setFile] at href₁
      have hty1 := h1.idle f1 href₁
      refine .inr ⟨f0, f1, _, rfl, h2, hne, ?_, ?_, rfl, rfl⟩
      · simpa [FileState.setFile, hne] using h.idle f0 href₀
      · simpa [FileState.setFile] using hty1

omit h

/-- Two files become the ends of a pipe, in a page that held none. -/
theorem Ok.pipeEnds (h : Ok s e) {f0 f1 : FileNo} (hne : f0 ≠ f1) (h0 : (s.file f0).type = .none)
    (h1 : (s.file f1).type = .none) (hr0 : 0 < (s.file f0).ref) (hr1 : 0 < (s.file f1).ref) (hpi : s.pipe pi = none)
    {x y : File} (hx : x = { s.file f0 with type := .pipe, readable := true, writable := false, pipe := pi })
    (hy : y = { s.file f1 with type := .pipe, readable := false, writable := true, pipe := pi }) :
    Ok (((s.kalloc pi).setFile f0 x).setFile f1 y) e := by
  generalize ht : ((s.kalloc pi).setFile f0 x).setFile f1 y = t
  have hf0 : t.file f0 = x := by
    rw [← ht]
    simp [FileState.setFile, hne]
  have hf1 : t.file f1 = y := by
    rw [← ht]
    simp [FileState.setFile]
  have hother : ∀ g, g ≠ f0 → g ≠ f1 → t.file g = s.file g := by
    intro g hg0 hg1
    rw [← ht]
    simp [FileState.setFile, hg0, hg1, FileState.kalloc, FileState.setPipe]
  have hold : ∀ g pi' w', s.IsEnd g pi' w' → g ≠ f0 ∧ g ≠ f1 := by
    rintro g pi' w' ⟨hg, -⟩
    constructor <;> rintro rfl
    · rw [h0] at hg
      cases hg
    · rw [h1] at hg
      cases hg
  -- no file was an end of the page before
  have hnew : ∀ g w', ¬ s.IsEnd g pi w' := by
    intro g w' hg
    have hopen := (h.ends pi w').mpr ⟨g, hg⟩
    simp [FileState.isOpen, hpi] at hopen
  have hend : ∀ g pi' w', t.IsEnd g pi' w' ↔
      s.IsEnd g pi' w' ∨ pi' = pi ∧ (g = f0 ∧ w' = false ∨ g = f1 ∧ w' = true) := by
    intro g pi' w'
    by_cases hg0 : g = f0
    · subst hg0
      have hno : ¬ s.IsEnd g pi' w' := fun hg => (hold g pi' w' hg).1 rfl
      rw [FileState.IsEnd, hf0, hx]
      simp only [true_and, hno, false_or, hne, false_and, or_false]
      constructor
      · rintro ⟨rfl, rfl⟩
        exact ⟨rfl, rfl⟩
      · rintro ⟨rfl, rfl⟩
        exact ⟨rfl, rfl⟩
    · by_cases hg1 : g = f1
      · subst hg1
        have hno : ¬ s.IsEnd g pi' w' := fun hg => (hold g pi' w' hg).2 rfl
        rw [FileState.IsEnd, hf1, hy]
        simp only [true_and, hno, false_or, hg0, false_and]
        constructor
        · rintro ⟨rfl, rfl⟩
          exact ⟨rfl, rfl⟩
        · rintro ⟨rfl, rfl⟩
          exact ⟨rfl, rfl⟩
      · rw [FileState.IsEnd, hother g hg0 hg1]
        simp [FileState.IsEnd, hg0, hg1]
  have hpipe : ∀ pi', pi' ≠ pi → t.pipe pi' = s.pipe pi' := by
    intro pi' hpi'
    rw [← ht]
    simp [FileState.setFile, FileState.kalloc, FileState.setPipe, hpi']
  have hpipe' : t.pipe pi = some ⟨true, true⟩ := by
    rw [← ht]
    simp [FileState.setFile, FileState.kalloc, FileState.setPipe]
  have hopen : ∀ w', t.isOpen pi w' = true := by
    intro w'
    cases w' <;> simp [FileState.isOpen, hpipe', PipeEnds.isOpen]
  have hopen' : ∀ pi' w', pi' ≠ pi → t.isOpen pi' w' = s.isOpen pi' w' := by
    intro pi' w' hpi'
    simp [FileState.isOpen, hpipe pi' hpi']
  have href : ∀ g, (t.file g).ref = (s.file g).ref := by
    intro g
    by_cases hg0 : g = f0
    · rw [hg0, hf0, hx]
    · by_cases hg1 : g = f1
      · rw [hg1, hf1, hy]
      · rw [hother g hg0 hg1]
  refine ⟨fun g => ?_, fun g hg => ?_, fun g g' pi' w' hg hg' => ?_, fun pi' w' => ?_, fun pi' hs => ?_, fun pi' => ?_, ?_⟩
  · rw [href, h.refs g, ← ht]
    rfl
  · rw [href] at hg
    have hg0 : g ≠ f0 := by
      rintro rfl
      omega
    have hg1 : g ≠ f1 := by
      rintro rfl
      omega
    rw [hother g hg0 hg1]
    exact h.idle g hg
  · rcases (hend g pi' w').mp hg with hg | ⟨rfl, hg⟩
    · rcases (hend g' pi' w').mp hg' with hg' | ⟨rfl, -⟩
      · exact h.sole g g' pi' w' hg hg'
      · exact absurd hg (hnew g w')
    · rcases (hend g' pi' w').mp hg' with hg' | ⟨-, hg'⟩
      · exact absurd hg' (hnew g' w')
      · rcases hg with ⟨rfl, rfl⟩ | ⟨rfl, rfl⟩ <;> rcases hg' with ⟨rfl, hw⟩ | ⟨rfl, hw⟩
        · rfl
        · cases hw
        · cases hw
        · rfl
  · by_cases hpi' : pi' = pi
    · subst hpi'
      refine iff_of_true (hopen w') ?_
      cases w' with
      | false => exact ⟨f0, (hend f0 pi' false).mpr (.inr ⟨rfl, .inl ⟨rfl, rfl⟩⟩)⟩
      | true => exact ⟨f1, (hend f1 pi' true).mpr (.inr ⟨rfl, .inr ⟨rfl, rfl⟩⟩)⟩
    · rw [hopen' pi' w' hpi', h.ends pi' w']
      refine exists_congr fun g => ?_
      rw [hend]
      simp [hpi']
  · by_cases hpi' : pi' = pi
    · exact ⟨true, by rw [hpi']; exact hopen true⟩
    · rw [hpipe pi' hpi'] at hs
      obtain ⟨w', hw'⟩ := h.used pi' hs
      exact ⟨w', by rw [hopen' pi' w' hpi']; exact hw'⟩
  · have hpages := h.pages pi'
    by_cases hpi' : pi' = pi
    · subst hpi'
      rw [hpi] at hpages
      rw [hpipe', ← ht]
      simpa [FileState.setFile, FileState.kalloc, FileState.setPipe] using hpages
    · rw [hpipe pi' hpi', ← ht]
      simpa [FileState.setFile, FileState.kalloc, FileState.setPipe, hpi'] using hpages
  · rw [← ht]
    exact h.closed

theorem Ok.pipealloc (h : Ok s 0) {pg : Option ℕ} (hpg : ∀ pi, pg = some pi → s.pipe pi = none) :
    (∃ t, Files.pipealloc s pg = .ok (none, t) ∧ Ok t 0 ∧ t.life = s.life) ∨
    ∃ f0 f1 t, Files.pipealloc s pg = .ok (some (f0, f1), t) ∧ Ok t (Pi.single f0 1 + Pi.single f1 1) ∧
      t.life = s.life := by
  unfold Files.pipealloc
  rcases h.pipeFiles with ⟨t, ht, hOk, hlife⟩ | ⟨f0, f1, t, ht, hOk, hne, h0, h1, hlife, hpipe⟩
  · rw [ht]
    exact .inl ⟨t, rfl, hOk, hlife⟩
  · rw [ht]
    have hr0 := hOk.ref_pos (f := f0) (by simp [hne])
    have hr1 := hOk.ref_pos (f := f1) (by simp [hne.symm])
    cases pg with
    | none =>
      obtain ⟨t1, ht1, hOk1, -, hlife₁⟩ := hOk.fileclose hr0
      rw [add_sub_cancel_left] at hOk1
      obtain ⟨t2, ht2, hOk2, -, hlife₂⟩ := hOk1.fileclose (hOk1.ref_pos (f := f1) (by simp))
      rw [sub_self] at hOk2
      refine .inl ⟨t2, ?_, hOk2, hlife₂.trans (hlife₁.trans hlife)⟩
      change (Files.fileclose t f0 >>= fun s => Files.fileclose s f1 >>= fun s => pure (none, s)) = _
      rw [ht1]
      change (Files.fileclose t1 f1 >>= fun s => pure (none, s)) = _
      rw [ht2]
      rfl
    | some pi =>
      refine .inr ⟨f0, f1, _, rfl, hOk.pipeEnds hne h0 h1 hr0 hr1 ?_ rfl ?_, hlife⟩
      · rw [hpipe]
        exact hpg pi rfl
      · simp [FileState.setFile, FileState.kalloc, FileState.setPipe, hne.symm]

theorem Ok.closeBoth (h : Ok s e) {rf wf : FileNo} (he : e = Pi.single rf 1 + Pi.single wf 1) :
    Ends s (do
      let s ← Files.fileclose s rf
      let s ← Files.fileclose s wf
      return (-1, s)) := by
  subst he
  have hr : 0 < ((Pi.single rf 1 + Pi.single wf 1 : FileNo → ℤ) rf) := by
    rw [Pi.add_apply, Pi.single_eq_same, Pi.single_apply]
    split <;> decide
  obtain ⟨t1, ht1, hOk1, -, hlife₁⟩ := h.fileclose (h.ref_pos hr)
  rw [add_sub_cancel_left] at hOk1
  obtain ⟨t2, ht2, hOk2, -, hlife₂⟩ := hOk1.fileclose (hOk1.ref_pos (f := wf) (by simp))
  rw [sub_self] at hOk2
  refine ⟨-1, t2, ?_, hOk2, hlife₂.trans hlife₁⟩
  rw [ht1]
  change (Files.fileclose t1 wf >>= fun s => pure (-1, s)) = _
  rw [ht2]
  rfl

theorem Ok.pipeFds (h : Ok s e) {rf wf : FileNo} (he : e = Pi.single rf 1 + Pi.single wf 1) (hp : s.life p = .live)
    (copied : Bool) : Ends s (Files.pipeFds s p rf wf copied) := by
  unfold Files.pipeFds
  cases hd : Files.fdalloc s p rf with
  | none => exact h.closeBoth he
  | some x =>
    obtain ⟨fd0, s1⟩ := x
    obtain ⟨h1, hn0, rfl⟩ := h.fdalloc hp hd
    dsimp only
    have hset0 : (s.setOfile p fd0 (some rf)).ofile p fd0 = some rf := by simp [FileState.setOfile]
    cases hd1 : Files.fdalloc (s.setOfile p fd0 (some rf)) p wf with
    | none =>
      refine (h1.clearOfile hset0).closeBoth ?_
      rw [sub_add_cancel, he]
    | some y =>
      obtain ⟨fd1, s2⟩ := y
      obtain ⟨h2, hn1, rfl⟩ := h1.fdalloc hp hd1
      dsimp only
      cases copied with
      | true =>
        refine ⟨0, _, rfl, ?_, rfl⟩
        rwa [he, add_sub_cancel_left, sub_self] at h2
      | false =>
        have hfd : fd0 ≠ fd1 := by
          rintro rfl
          rw [hset0] at hn1
          cases hn1
        have hc0 : ((s.setOfile p fd0 (some rf)).setOfile p fd1 (some wf)).ofile p fd0 = some rf := by
          simp [FileState.setOfile, hfd]
        have h3 := h2.clearOfile hc0
        have hc1 : (((s.setOfile p fd0 (some rf)).setOfile p fd1 (some wf)).setOfile p fd0 none).ofile p fd1 = some wf := by
          simp [FileState.setOfile, hfd.symm]
        have h4 := h3.clearOfile hc1
        refine h4.closeBoth ?_
        rw [he, sub_add_eq_add_sub, sub_add_cancel, sub_add_cancel]

include h

theorem Ok.pipe (hp : s.life p = .live) {pg : Option ℕ} (hpg : ∀ pi, pg = some pi → s.pipe pi = none)
    (copied : Bool) : Ends s (Files.pipe s p pg copied) := by
  unfold Files.pipe
  rcases h.pipealloc hpg with ⟨t, ht, hOk, hlife⟩ | ⟨f0, f1, t, ht, hOk, hlife⟩
  · rw [ht]
    exact ⟨-1, t, rfl, hOk, hlife⟩
  · rw [ht]
    obtain ⟨r, u, hu, hOk', hlife'⟩ := hOk.pipeFds rfl (p := p) (by rw [hlife]; exact hp) copied
    exact ⟨r, u, hu, hOk', hlife'.trans hlife⟩

theorem Ok.exitFd (p : Slot) (fd : Fd) :
    ∃ t, Files.exitFd p s fd = .ok t ∧ Ok t 0 ∧ t.life = s.life ∧ t.ofile p fd = none ∧
      ∀ k, s.ofile p k = none → t.ofile p k = none := by
  unfold Files.exitFd
  cases hfd : s.ofile p fd with
  | none => exact ⟨s, rfl, h, rfl, hfd, fun _ hk => hk⟩
  | some f =>
    obtain ⟨t, ht, hOk, hofile, hlife⟩ := h.fileclose (h.ref_pos_of_ofile hfd)
    rw [← hofile] at hfd
    have hOk' := hOk.clearOfile hfd
    rw [sub_add_cancel] at hOk'
    refine ⟨t.setOfile p fd none, ?_, hOk', hlife, by simp [FileState.setOfile], fun k hk => ?_⟩
    · dsimp only
      rw [ht]
      rfl
    · by_cases hk' : k = fd
      · simp [FileState.setOfile, hk']
      · simpa [FileState.setOfile, hk', hofile] using hk

theorem Ok.exitFds (p : Slot) (fds : List Fd) :
    ∃ t, fds.foldlM (Files.exitFd p) s = .ok t ∧ Ok t 0 ∧ t.life = s.life ∧
      ∀ k, k ∈ fds ∨ s.ofile p k = none → t.ofile p k = none := by
  induction fds generalizing s with
  | nil => exact ⟨s, rfl, h, rfl, fun k hk => by simpa using hk⟩
  | cons fd fds ih =>
    obtain ⟨t, ht, hOk, hlife, hfd, hkeep⟩ := h.exitFd p fd
    obtain ⟨u, hu, hOk', hlife', hall⟩ := ih hOk
    refine ⟨u, ?_, hOk', hlife'.trans hlife, fun k hk => ?_⟩
    · rw [List.foldlM_cons, ht]
      exact hu
    · rcases hk with hk | hk
      · rcases List.mem_cons.mp hk with rfl | hk
        · exact hall k (.inr hfd)
        · exact hall k (.inl hk)
      · exact hall k (.inr (hkeep k hk))

theorem Ok.exit (p : Slot) :
    ∃ r t, Files.exit s p = .ok (r, t) ∧ Ok t 0 ∧ t.life = update s.life p .zombie := by
  obtain ⟨t, ht, hOk, hlife, hall⟩ := h.exitFds p (List.finRange NOFILE)
  refine ⟨0, t.setLife p .zombie, ?_, ?_, ?_⟩
  · unfold Files.exit
    rw [ht]
    rfl
  · refine hOk.of_ofile rfl rfl rfl rfl (fun _ => rfl) fun q hq k => ?_
    by_cases hqp : q = p
    · subst hqp
      exact hall k (.inl (by simp))
    · exact hOk.closed q (by simpa [FileState.setLife, hqp] using hq) k
  · rw [← hlife]
    rfl

/-- The loop of `fork`: the descriptors of the child are free up to where it has come. -/
theorem Ok.forkFds {p np : Slot} (hnp : s.life np = .live) {fds : List Fd} (hnd : fds.Nodup)
    (hfree : ∀ k ∈ fds, s.ofile np k = none) :
    ∃ t, fds.foldlM (Files.forkFd p np) s = .ok t ∧ Ok t 0 ∧ t.life = s.life := by
  induction fds generalizing s with
  | nil => exact ⟨s, rfl, h, rfl⟩
  | cons fd fds ih =>
    rw [List.nodup_cons] at hnd
    have hturn : ∃ t, Files.forkFd p np s fd = .ok t ∧ Ok t 0 ∧ t.life = s.life ∧ ∀ k ∈ fds, t.ofile np k = none := by
      unfold Files.forkFd
      cases hfd : s.ofile p fd with
      | none => exact ⟨s, rfl, h, rfl, fun k hk => hfree k (List.mem_cons_of_mem _ hk)⟩
      | some f =>
        obtain ⟨t, ht, hOk, hofile, hlife⟩ := h.filedup (h.ref_pos_of_ofile hfd)
        have hnone : t.ofile np fd = none := by
          rw [hofile]
          exact hfree fd List.mem_cons_self
        have hOk' := hOk.setOfile (p := np) (by rw [hlife]; exact hnp) hnone f
        rw [add_sub_cancel_right] at hOk'
        refine ⟨t.setOfile np fd (some f), ?_, hOk', hlife, fun k hk => ?_⟩
        · dsimp only
          rw [ht]
          rfl
        · have hk' : k ≠ fd := by
            rintro rfl
            exact hnd.1 hk
          simpa [FileState.setOfile, hk', hofile] using hfree k (List.mem_cons_of_mem _ hk)
    obtain ⟨t, ht, hOk, hlife, hfree'⟩ := hturn
    obtain ⟨u, hu, hOk', hlife'⟩ := ih hOk (by rw [hlife]; exact hnp) hnd.2 hfree'
    refine ⟨u, ?_, hOk', hlife'.trans hlife⟩
    rw [List.foldlM_cons, ht]
    exact hu

theorem Ok.fork (p : Slot) {o : Option Slot} (ho : ∀ np, o = some np → s.life np = .unused) :
    ∃ r t, Files.fork s p o = .ok (r, t) ∧ Ok t 0 := by
  cases o with
  | none => exact ⟨-1, s, rfl, h⟩
  | some np =>
    have hun := ho np rfl
    have hfree : ∀ k, s.ofile np k = none := h.closed np (by simp [hun])
    have h1 : Ok (s.setLife np .live) 0 := by
      refine h.of_ofile rfl rfl rfl rfl (fun _ => rfl) fun q hq k => ?_
      have hqn : q ≠ np := by
        rintro rfl
        simp [FileState.setLife] at hq
      exact h.closed q (by simpa [FileState.setLife, hqn] using hq) k
    obtain ⟨t, ht, hOk, -⟩ := h1.forkFds (p := p) (by simp [FileState.setLife]) (List.nodup_finRange NOFILE)
      fun k _ => hfree k
    refine ⟨0, t, ?_, hOk⟩
    change ((List.finRange NOFILE).foldlM (Files.forkFd p np) (s.setLife np .live) >>= fun s => pure (0, s)) = _
    rw [ht]
    rfl

/-- **Every call** of a process ends, without a panic, and with nothing in hand. -/
theorem Ok.call (hp : s.life p = .live) {c : Call} (ha : s.Allows p c) : ∃ r t, s.call p c = .ok (r, t) ∧ Ok t 0 := by
  have hends : ∀ {x}, Ends s x → ∃ r t, x = .ok (r, t) ∧ Ok t 0 := by
    rintro x ⟨r, t, hx, hOk, -⟩
    exact ⟨r, t, hx, hOk⟩
  cases c with
  | openFile o => exact hends (h.openFile hp o)
  | dup fd => exact hends (h.dup hp fd)
  | pipe pg copied =>
    refine hends (h.pipe hp (fun pi hpi => ?_) copied)
    subst hpi
    exact ha
  | close fd => exact hends (h.close fd)
  | fork np =>
    refine h.fork p fun q hq => ?_
    subst hq
    exact ha
  | exit =>
    obtain ⟨r, t, ht, hOk, -⟩ := h.exit p
    exact ⟨r, t, ht, hOk⟩
  | wait q =>
    refine ⟨0, s.setLife q .unused, rfl, h.of_ofile rfl rfl rfl rfl (fun _ => rfl) fun r hr k => ?_⟩
    by_cases hrq : r = q
    · subst hrq
      have hz : s.life r = .zombie := ha
      exact h.closed r (by simp [hz]) k
    · exact h.closed r (by simpa [FileState.setLife, hrq] using hr) k

end Functions

/-! ### Runs -/

theorem ok_boot : Ok .boot 0 := by
  refine ⟨fun f => ?_, fun _ _ => rfl, ?_, fun pi w => ?_, fun _ hpi => absurd hpi Bool.false_ne_true, fun _ => rfl, fun _ _ _ => rfl⟩
  · have hslots : FileState.boot.slots f = 0 := tally_eq_zero_iff.mpr fun x => by simp [FileState.boot]
    rw [hslots]
    rfl
  · rintro f f' pi w ⟨hf, -⟩
    cases hf
  · refine iff_of_false (by simp [FileState.isOpen, FileState.boot]) ?_
    rintro ⟨f, hf, -⟩
    cases hf

theorem ok_of_reachable {s : FileState} (h : fileMachine.Reachable s) : Ok s 0 := by
  apply Reachable.invariant (I := fun s => Ok s 0) _ _ h
  · rintro s rfl
    exact ok_boot
  · rintro s ⟨p, c⟩ t - hOk ⟨hp, ha, r, hc⟩
    obtain ⟨r', t', hc', hOk'⟩ := hOk.call hp ha
    rw [hc] at hc'
    cases hc'
    exact hOk'

instance (s : FileState) (p : Slot) : (c : Call) → Decidable (s.Allows p c)
  | .openFile _ => inferInstanceAs (Decidable True)
  | .dup _ => inferInstanceAs (Decidable True)
  | .pipe none _ => inferInstanceAs (Decidable True)
  | .pipe (some pg) _ => inferInstanceAs (Decidable (s.pipe pg = none))
  | .close _ => inferInstanceAs (Decidable True)
  | .fork none => inferInstanceAs (Decidable True)
  | .fork (some np) => inferInstanceAs (Decidable (s.life np = .unused))
  | .exit => inferInstanceAs (Decidable (p ≠ 0))
  | .wait q => inferInstanceAs (Decidable (s.life q = .zombie))

theorem step_of_call {s t : FileState} {x : Slot × Call} (hp : decide (s.life x.1 = .live ∧ s.Allows x.1 x.2) = true)
    (ht : (s.call x.1 x.2).toOption.map Prod.snd = some t) : fileMachine.step s x t := by
  obtain ⟨hlive, ha⟩ := of_decide_eq_true hp
  refine ⟨hlive, ha, ?_⟩
  cases hc : s.call x.1 x.2 with
  | error _ =>
    rw [hc] at ht
    cases ht
  | ok y =>
    rw [hc] at ht
    cases ht
    exact ⟨y.1, rfl⟩

/-- **The table of files**, after any calls of any processes: the count of a file is the number of descriptors that refer
to it; a file with count `0` has no type; an end of a pipe is open exactly if a file that is counted is this end of it; the
page of a pipe was passed to `kfree` as often as it was handed out, less one while a file is an end of it; and no call that
follows goes wrong. -/
theorem file_table {s : FileState} (h : fileMachine.Reachable s) :
    (∀ f, (s.file f).ref = (Finset.univ.filter fun x : Slot × Fd => s.ofile x.1 x.2 = some f).card) ∧
    (∀ f, (s.file f).ref = 0 → (s.file f).type = .none) ∧
    (∀ pi w, (∃ x, s.pipe pi = some x ∧ (if w then x.writeopen else x.readopen) = true) ↔
      ∃ f, 0 < (s.file f).ref ∧ (s.file f).type = .pipe ∧ (s.file f).pipe = pi ∧ (s.file f).writable = w) ∧
    (∀ pi, ((∃ f, 0 < (s.file f).ref ∧ (s.file f).type = .pipe ∧ (s.file f).pipe = pi) → s.kallocs pi = s.kfrees pi + 1) ∧
      ((¬ ∃ f, 0 < (s.file f).ref ∧ (s.file f).type = .pipe ∧ (s.file f).pipe = pi) → s.kallocs pi = s.kfrees pi)) ∧
    ∀ p c, s.life p = .live → s.Allows p c → ∃ r t, s.call p c = .ok (r, t) := by
  have hOk := ok_of_reachable h
  have hpos : ∀ f, (s.file f).type = .pipe → 0 < (s.file f).ref := by
    intro f hf
    refine Nat.pos_of_ne_zero fun h0 => ?_
    rw [hOk.idle f h0] at hf
    cases hf
  have hpage : ∀ pi, (s.pipe pi).isSome = true ↔
      ∃ f, 0 < (s.file f).ref ∧ (s.file f).type = .pipe ∧ (s.file f).pipe = pi := by
    intro pi
    constructor
    · intro hpi
      obtain ⟨w, hw⟩ := hOk.used pi hpi
      obtain ⟨f, hf, hfp, -⟩ := (hOk.ends pi w).mp hw
      exact ⟨f, hpos f hf, hf, hfp⟩
    · rintro ⟨f, -, hf, hfp⟩
      have hopen := (hOk.ends pi _).mpr ⟨f, hf, hfp, rfl⟩
      obtain ⟨x, hx, -⟩ : ∃ x, s.pipe pi = some x ∧ _ := by
        simpa [FileState.isOpen, Option.any_eq_true] using hopen
      simp [hx]
  refine ⟨fun f => ?_, hOk.idle, fun pi w => ?_, fun pi => ⟨fun hf => ?_, fun hf => ?_⟩, fun p c hp ha => ?_⟩
  · have hrefs := hOk.refs f
    rw [Pi.zero_apply, add_zero] at hrefs
    have hslots : s.slots f = (Finset.univ.filter fun x : Slot × Fd => s.ofile x.1 x.2 = some f).card := by
      simp [FileState.slots, tally]
    rw [← hslots]
    exact_mod_cast hrefs
  · have hends := hOk.ends pi w
    simp only [FileState.isOpen, Option.any_eq_true, PipeEnds.isOpen, FileState.IsEnd] at hends
    rw [hends]
    exact exists_congr fun f => ⟨fun hf => ⟨hpos f hf.1, hf⟩, And.right⟩
  · have hp := hOk.pages pi
    rwa [(hpage pi).mpr hf] at hp
  · have hp := hOk.pages pi
    rwa [Bool.eq_false_iff.mpr ((hpage pi).not.mpr hf)] at hp
  · obtain ⟨r, t, hc, -⟩ := hOk.call hp ha
    exact ⟨r, t, hc⟩

/-- A pipe between a process and its child, of which the parent has closed the end for reading and the child has exited. -/
theorem file_table_of_pipe : ∃ s, fileMachine.Reachable s ∧ s.ofile 0 1 = some 1 ∧ (s.file 0).ref = 0 ∧
    (s.file 0).type = .none ∧ (s.file 1).ref = 1 ∧ s.kallocs 7 = s.kfrees 7 + 1 := by
  have htr : (traceOf (fun s x => (s.call x.1 x.2).toOption.map Prod.snd)
      (fun s x => decide (s.life x.1 = .live ∧ s.Allows x.1 x.2)) FileState.boot
      [(0, .pipe (some 7) true), (0, .fork (some 1)), (0, .close 0), (1, .exit), (0, .wait 1)]).map
      (fun x => decide (x.2.ofile 0 1 = some 1 ∧ (x.2.file 0).ref = 0 ∧ 0 < (x.2.file 1).ref ∧
        (x.2.file 1).type = .pipe ∧ (x.2.file 1).pipe = 7 ∧ (x.2.file 1).ref = 1)) = some true := by
    decide +kernel
  obtain ⟨tr, t, hrun, ht⟩ := exists_run_of_traceOf (M := fileMachine) (fun _ _ _ => step_of_call) htr
  obtain ⟨hfd, h0, hpos, htype, hpipe, h1⟩ := of_decide_eq_true ht
  have hreach : fileMachine.Reachable t := ⟨.boot, tr, rfl, hrun⟩
  obtain ⟨-, hidle, -, hpages, -⟩ := file_table hreach
  exact ⟨t, hreach, hfd, h0, hidle 0 h0, h1, (hpages 7).1 ⟨1, hpos, htype, hpipe⟩⟩

end Xv6Shmem.Files
