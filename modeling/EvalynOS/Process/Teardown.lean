import EvalynOS.Process.Contained
import EvalynOS.Scheduler.Reaping

/-! Threads and their address spaces, from create_thread to the reaper. A thread has the
pagemap that it was made with, and the reaper deletes it with the thread. Threads of the
kernel all have kernel_pagemap. -/
namespace EvalynOS.Process
open Lib Lib.Word Pmm Vmm
open Scheduler (Ptr PagemapRef Sched Reaper Action Safe SameMade exiting)

/- The scheduler with its reaper and the memory; top_level of the pagemap_t structures on the
heap, and those that no thread was given yet. -/
structure World where
  reaper : Reaper
  machine : Machine
  pagemaps : Ptr → Option Nat
  spare : List Ptr

def pagemapOf (s : Sched) (p : Ptr) : Option PagemapRef := (s.heap p).map Scheduler.Thread.pagemap

namespace World

def topLevel (w : World) : PagemapRef → Option Nat
  | .kernel => some w.machine.kernelTop
  | .user pagemap => w.pagemaps pagemap

/- delete_pagemap when its pages are freed: top_level is NULL, and the structure is freed. -/
def deleted (w : World) (s' : Phys) (top : Nat) : PagemapRef → World
  | .kernel => { w with machine := { w.machine with phys := s', kernelTop := 0 } }
  | .user pagemap => { w with
      machine := { w.machine with phys := s', users := w.machine.users.filter (fun u => u ≠ top) }
      pagemaps := fun q => if q = pagemap then none else w.pagemaps q }

end World

/-- The reaper deletes the pagemap of a thread that it has taken, and frees the thread. -/
inductive Reaps (w : World) (ref : PagemapRef) : World → Prop where
  | intro {p top : Nat} {t : Scheduler.Thread} {s' : Phys} {r' : Reaper} : p ∈ w.reaper.taken →
      w.reaper.sched.heap p = some t → t.pagemap = ref → w.topLevel ref = some top →
      deletePagemap w.machine.phys top = .ok s' → (Action.release p).exec 0 w.reaper = some r' →
      Reaps w ref { w.deleted s' top ref with reaper := r' }

/- What is asked before the running thread exits or returns. -/
def Passes (guard : Sched → Prop) (s : Sched) : Action → Prop
  | .call .markExit => guard s
  | _ => True

/-- What happens to threads and address spaces, in any order. A thread gets NULL or a new
pagemap. -/
inductive Move (idle : Ptr) (guard : Sched → Prop) (w : World) : World → Prop where
  | machine {m' : Machine} : Step w.machine m' → m'.users = w.machine.users →
      Move idle guard w { w with machine := m' }
  | newPagemap {space : AddressSpace} {pagemap : Ptr} :
      newPagemap w.machine.phys w.machine.kernelTop = .ok space → w.pagemaps pagemap = none →
      Move idle guard w { w with
        machine := { w.machine with phys := space.phys, users := space.topLevel :: w.machine.users }
        pagemaps := fun q => if q = pagemap then some space.topLevel else w.pagemaps q
        spare := pagemap :: w.spare }
  | create {p fds stack : Ptr} {pagemap : Option Ptr} {r' : Reaper} {fuel : Nat} :
      (∀ pm, pagemap = some pm → pm ∈ w.spare) →
      (Action.call (.create p fds stack pagemap)).Enabled idle w.reaper →
      (Action.call (.create p fds stack pagemap)).exec fuel w.reaper = some r' →
      Move idle guard w { w with reaper := r', spare := w.spare.filter (fun pm => some pm ≠ pagemap) }
  | act {a : Action} {r' : Reaper} {fuel : Nat} : a.quiet = true → a.Enabled idle w.reaper →
      Passes guard w.reaper.sched a → a.exec fuel w.reaper = some r' →
      Move idle guard w { w with reaper := r' }
  | reap {ref : PagemapRef} {w' : World} : Reaps w ref w' → Move idle guard w w'

inductive Moves (idle : Ptr) (guard : Sched → Prop) (w₀ : World) : World → Prop where
  | start : Moves idle guard w₀ w₀
  | move {w w' : World} : Moves idle guard w₀ w → Move idle guard w w' → Moves idle guard w₀ w'

/-- The running thread has a pagemap of its own. -/
def OwnPagemap (s : Sched) : Prop := s.threads.bind (pagemapOf s) ≠ some .kernel

/-- Every pagemap belongs to one thread or to none yet, and no thread of the kernel exits. -/
structure Sound (idle : Ptr) (w : World) (level : Levels) : Prop where
  coherent : Coherent w.machine level
  safe : Safe idle w.reaper
  known : ∀ pm u, w.pagemaps pm = some u → u ∈ w.machine.users
  distinct : ∀ pm pm' u, w.pagemaps pm = some u → w.pagemaps pm' = some u → pm = pm'
  spare : ∀ pm ∈ w.spare, w.pagemaps pm ≠ none
  owned : ∀ p pm, pagemapOf w.reaper.sched p = some (.user pm) → pm ∉ w.spare ∧ w.pagemaps pm ≠ none
  single : ∀ p q pm, pagemapOf w.reaper.sched p = some (.user pm) →
    pagemapOf w.reaper.sched q = some (.user pm) → p = q
  staying : ∀ p, pagemapOf w.reaper.sched p = some .kernel → exiting w.reaper.sched p = false
  parting : ∀ p ∈ w.reaper.taken, pagemapOf w.reaper.sched p ≠ some .kernel

section Keep

variable {idle : Ptr} {w w' : World} {level : Levels}

theorem pagemapOf_eq (s : Sched) (p : Ptr) : pagemapOf s p = (s.made p).map (fun made => made.2.1) := by
  simp only [pagemapOf, Sched.made, Option.map_map]
  rfl

theorem pagemapOf_same {s s' : Sched} (same : SameMade s s') (p : Ptr) : pagemapOf s' p = pagemapOf s p := by
  rw [pagemapOf_eq, pagemapOf_eq, same.made p]

/-- The page of a new top level was not in use, so no process has it. -/
theorem Coherent.new_top {m : Machine} (coherent : Coherent m level) {space : AddressSpace}
    (made : Process.newPagemap m.phys m.kernelTop = .ok space) : space.topLevel ∉ m.users := by
  intro live
  obtain ⟨list, inv⟩ := coherent.inv
  obtain ⟨k, top, atTop⟩ := coherent.kernel.frame
  obtain ⟨p, created⟩ := newPagemap_created inv atTop (coherent.kernel.typed.used k 4 top) made
  obtain ⟨q, here, owns⟩ := (coherent.users _ live).root
  have same : q = p := by
    have address := created.top
    omega
  exact created.unused (same ▸ coherent.used (.inr ⟨_, live, .inl owns⟩))

/-- Deleting a process changes no table of the kernel. -/
theorem Coherent.deletePagemap_kept {m : Machine} (coherent : Coherent m level) {u : Nat} {s' : Phys}
    (live : u ∈ m.users) (deleted : Vmm.deletePagemap m.phys u = .ok s') : KernelKept m.phys s' level := by
  obtain ⟨list, inv⟩ := coherent.inv
  rcases deletePagemap_outcome inv (coherent.users u live) with ⟨s₁, freed, ran, released, _, owned⟩ | ⟨failed, _⟩
  · cases Except.ok.inj (ran.symm.trans deleted)
    refine ⟨released.hhdm, ?_⟩
    intro q n here i bound
    apply released.pte inv.layout (coherent.kernel.typed.used q n here) _ bound
    intro isFreed
    rw [coherent.apart u live q ((owned q).mp isFreed)] at here
    cases here
  · cases failed.symm.trans deleted

theorem Sound.machine (sound : Sound idle w level) {m' : Machine} (step : Step w.machine m')
    (users : m'.users = w.machine.users) : ∃ level', Sound idle { w with machine := m' } level' := by
  obtain ⟨level', coherent⟩ := sound.coherent.step step
  refine ⟨level', coherent, sound.safe, ?_, sound.distinct, sound.spare, sound.owned, sound.single,
    sound.staying, sound.parting⟩
  intro pm u here
  change u ∈ m'.users
  rw [users]
  exact sound.known pm u here

theorem Sound.newPagemap (sound : Sound idle w level) {space : AddressSpace} {pagemap : Ptr}
    (made : newPagemap w.machine.phys w.machine.kernelTop = .ok space) (fresh : w.pagemaps pagemap = none) :
    Sound idle { w with
      machine := { w.machine with phys := space.phys, users := space.topLevel :: w.machine.users }
      pagemaps := fun q => if q = pagemap then some space.topLevel else w.pagemaps q
      spare := pagemap :: w.spare } level := by
  have unknown : ∀ pm, w.pagemaps pm ≠ some space.topLevel := fun pm here =>
    sound.coherent.new_top made (sound.known pm _ here)
  refine ⟨sound.coherent.newPagemap made, sound.safe, ?_, ?_, ?_, ?_, sound.single, sound.staying, sound.parting⟩
  · intro pm u here
    dsimp only at here
    split at here
    · exact Option.some.inj here ▸ List.mem_cons_self
    · exact List.mem_cons_of_mem _ (sound.known pm u here)
  · intro pm pm' u here there
    dsimp only at here there
    split at here
    · rename_i isNew
      split at there
      · rename_i isNew'
        exact isNew.trans isNew'.symm
      · exact absurd (there.trans here.symm) (unknown pm')
    · split at there
      · exact absurd (here.trans there.symm) (unknown pm)
      · exact sound.distinct pm pm' u here there
  · intro pm member
    dsimp only
    split
    · exact Option.some_ne_none _
    · rename_i other
      exact sound.spare pm ((List.mem_cons.mp member).resolve_left other)
  · intro p pm here
    obtain ⟨notSpare, exists_⟩ := sound.owned p pm here
    have other : pm ≠ pagemap := by
      rintro rfl
      exact exists_ fresh
    dsimp only
    rw [if_neg other]
    exact ⟨fun member => notSpare ((List.mem_cons.mp member).resolve_left other), exists_⟩

/-- What threads are made of decides most of it. -/
theorem Sound.quiet (sound : Sound idle w level) {a : Action} {r' : Reaper} {fuel : Nat} (quiet : a.quiet = true)
    (enabled : a.Enabled idle w.reaper) (passes : Passes OwnPagemap w.reaper.sched a)
    (result : a.exec fuel w.reaper = some r') : Sound idle { w with reaper := r' } level := by
  have step := Scheduler.exec_quiet sound.safe enabled result quiet
  have same := pagemapOf_same step.made
  have staying : ∀ p, exiting w.reaper.sched p = true → pagemapOf w.reaper.sched p ≠ some .kernel := by
    intro p exiting kernel
    rw [sound.staying p kernel] at exiting
    cases exiting
  refine ⟨sound.coherent, Scheduler.exec_safe sound.safe enabled result, sound.known, sound.distinct, sound.spare,
    ?_, ?_, ?_, ?_⟩
  · intro p pm here
    exact sound.owned p pm ((same p).symm.trans here)
  · intro p q pm here there
    exact sound.single p q pm ((same p).symm.trans here) ((same q).symm.trans there)
  · intro p kernel
    have before : pagemapOf w.reaper.sched p = some .kernel := (same p).symm.trans kernel
    by_contra exiting
    rcases step.exits p (Bool.eq_true_of_not_eq_false exiting) with already | ⟨isExit, running⟩
    · exact staying p already before
    · subst isExit
      unfold Passes OwnPagemap at passes
      rw [running] at passes
      exact passes before
  · intro p member kernel
    have before : pagemapOf w.reaper.sched p = some .kernel := (same p).symm.trans kernel
    rcases step.takes p member with already | exiting
    · exact sound.parting p already before
    · exact staying p exiting before

theorem Sound.create (sound : Sound idle w level) {p fds stack : Ptr} {pagemap : Option Ptr} {r' : Reaper}
    {fuel : Nat} (spare : ∀ pm, pagemap = some pm → pm ∈ w.spare)
    (enabled : (Action.call (.create p fds stack pagemap)).Enabled idle w.reaper)
    (result : (Action.call (.create p fds stack pagemap)).exec fuel w.reaper = some r') :
    Sound idle { w with reaper := r', spare := w.spare.filter (fun pm => some pm ≠ pagemap) } level := by
  have safe := Scheduler.exec_safe sound.safe enabled result
  obtain ⟨s', created, result⟩ := Option.bind_eq_some_iff.mp result
  cases Option.some.inj result
  change Scheduler.createThread w.reaper.sched p fds stack pagemap = some s' at created
  obtain ⟨madeNew, madeOld, -⟩ := Scheduler.createThread_made created
  have new : ∀ pm, pagemapOf s' p = some (.user pm) ↔ pagemap = some pm := by
    intro pm
    rw [pagemapOf_eq, madeNew]
    cases pagemap with
    | none => simp [Scheduler.Thread.made, Scheduler.initThread]
    | some own => simp [Scheduler.Thread.made, Scheduler.initThread]
  have old : ∀ q, q ≠ p → pagemapOf s' q = pagemapOf w.reaper.sched q := by
    intro q other
    rw [pagemapOf_eq, pagemapOf_eq, madeOld q other]
  have absent : w.reaper.sched.heap p = none := enabled.2
  refine ⟨sound.coherent, safe, sound.known, sound.distinct,
    fun pm member => sound.spare pm (List.mem_filter.mp member).1, ?_, ?_, ?_, ?_⟩
  · intro q pm here
    by_cases isNew : q = p
    · subst isNew
      have given := (new pm).mp here
      refine ⟨?_, sound.spare pm (spare pm given)⟩
      intro member
      have different := (List.mem_filter.mp member).2
      simp [given] at different
    · obtain ⟨notSpare, exists_⟩ := sound.owned q pm ((old q isNew).symm.trans here)
      exact ⟨fun member => notSpare (List.mem_filter.mp member).1, exists_⟩
  · intro q q' pm here there
    by_cases isNew : q = p
    · by_cases isNew' : q' = p
      · exact isNew.trans isNew'.symm
      · subst isNew
        have given := spare pm ((new pm).mp here)
        exact absurd given (sound.owned q' pm ((old q' isNew').symm.trans there)).1
    · by_cases isNew' : q' = p
      · subst isNew'
        have given := spare pm ((new pm).mp there)
        exact absurd given (sound.owned q pm ((old q isNew).symm.trans here)).1
      · exact sound.single q q' pm ((old q isNew).symm.trans here) ((old q' isNew').symm.trans there)
  · intro q kernel
    by_contra exits
    obtain ⟨other, before⟩ := Scheduler.createThread_exiting created (Bool.eq_true_of_not_eq_false exits)
    rw [sound.staying q ((old q other).symm.trans kernel)] at before
    cases before
  · intro q member kernel
    have other : q ≠ p := by
      rintro rfl
      obtain ⟨_, _, _, custody⟩ := sound.safe
      obtain ⟨number, -, there⟩ := custody.used q member
      simp [Sched.number, absent] at there
    exact sound.parting q member ((old q other).symm.trans kernel)

/-- The reaper deletes a process, never the kernel, and frees its thread. -/
theorem Sound.reap (sound : Sound idle w level) {ref : PagemapRef} (reaps : Reaps w ref w') :
    Sound idle w' level ∧ ref ≠ .kernel ∧ w'.machine.kernelTop = w.machine.kernelTop ∧
      KernelKept w.machine.phys w'.machine.phys level := by
  cases reaps with
  | @intro p top t s' r' taken here isRef found deleted released =>
    have own : pagemapOf w.reaper.sched p = some ref := by
      rw [pagemapOf, here, ← isRef]
      rfl
    cases ref with
    | kernel => exact absurd own (sound.parting p taken)
    | user pm =>
      have live : top ∈ w.machine.users := sound.known pm top found
      refine ⟨?_, by simp, rfl, sound.coherent.deletePagemap_kept live deleted⟩
      have enabled : (Action.release p).Enabled idle w.reaper := taken
      have safe := Scheduler.exec_safe sound.safe enabled released
      cases Option.some.inj released
      have gone : ∀ q ref, pagemapOf { w.reaper.sched with
          heap := fun q => if q = p then none else w.reaper.sched.heap q } q = some ref →
          q ≠ p ∧ pagemapOf w.reaper.sched q = some ref := by
        intro q ref there
        by_cases isGone : q = p
        · simp [pagemapOf, isGone] at there
        · exact ⟨isGone, by simpa [pagemapOf, isGone] using there⟩
      have others : ∀ q pm', q ≠ p → pagemapOf w.reaper.sched q = some (.user pm') → pm' ≠ pm := by
        rintro q pm' other there rfl
        exact other (sound.single q p pm' there own)
      refine ⟨sound.coherent.deletePagemap live deleted, safe, ?_, ?_, ?_, ?_, ?_, ?_, ?_⟩
      · intro pm' u there
        change (if pm' = pm then none else w.pagemaps pm') = some u at there
        split at there
        · cases there
        · rename_i other
          refine List.mem_filter.mpr ⟨sound.known pm' u there, ?_⟩
          have different : u ≠ top := by
            rintro rfl
            exact other (sound.distinct pm' pm u there found)
          simpa using different
      · intro pm₁ pm₂ u one two
        change (if pm₁ = pm then none else w.pagemaps pm₁) = some u at one
        change (if pm₂ = pm then none else w.pagemaps pm₂) = some u at two
        split at one
        · cases one
        · split at two
          · cases two
          · exact sound.distinct pm₁ pm₂ u one two
      · intro pm' member
        change (if pm' = pm then none else w.pagemaps pm') ≠ none
        have other : pm' ≠ pm := by
          rintro rfl
          exact (sound.owned p pm' own).1 member
        rw [if_neg other]
        exact sound.spare pm' member
      · intro q pm' there
        obtain ⟨other, before⟩ := gone q _ there
        change pm' ∉ w.spare ∧ (if pm' = pm then none else w.pagemaps pm') ≠ none
        rw [if_neg (others q pm' other before)]
        exact sound.owned q pm' before
      · intro q q' pm' one two
        exact sound.single q q' pm' (gone q _ one).2 (gone q' _ two).2
      · intro q kernel
        obtain ⟨other, before⟩ := gone q _ kernel
        have stays := sound.staying q before
        simpa [exiting, other] using stays
      · intro q member kernel
        exact sound.parting q (List.mem_of_mem_erase member) (gone q _ kernel).2

theorem step_kernelTop {m m' : Machine} (step : Step m m') : m'.kernelTop = m.kernelTop := by
  cases step with
  | newPagemap => rfl
  | kernelMap => rfl
  | kernelUnmap => rfl
  | userMap => rfl
  | userMapForeign => rfl
  | deletePagemap => rfl
  | allocatePage => rfl
  | freePage => rfl
  | write => rfl

theorem Sound.move (sound : Sound idle w level) (move : Move idle OwnPagemap w w') :
    (∃ level', Sound idle w' level') ∧ w'.machine.kernelTop = w.machine.kernelTop := by
  cases move with
  | machine step users => exact ⟨sound.machine step users, step_kernelTop step⟩
  | newPagemap made fresh => exact ⟨⟨level, sound.newPagemap made fresh⟩, rfl⟩
  | create spare enabled result => exact ⟨⟨level, sound.create spare enabled result⟩, rfl⟩
  | act quiet enabled passes result => exact ⟨⟨level, sound.quiet quiet enabled passes result⟩, rfl⟩
  | reap reaps =>
    obtain ⟨sound', -, same, -⟩ := sound.reap reaps
    exact ⟨⟨level, sound'⟩, same⟩

theorem Sound.moves {w₀ : World} (sound : Sound idle w₀ level) (moves : Moves idle OwnPagemap w₀ w) :
    (∃ level', Sound idle w level') ∧ w.machine.kernelTop = w₀.machine.kernelTop := by
  induction moves with
  | start => exact ⟨⟨level, sound⟩, rfl⟩
  | move _ move ih =>
    obtain ⟨⟨level', sound'⟩, same⟩ := ih
    obtain ⟨after, same'⟩ := sound'.move move
    exact ⟨after, same'.trans same⟩

end Keep

/- The threads of kmain are the kernel's, and do not exit. -/
theorem kmainThreads_kernel {s₀ s : Sched} (empty : ∀ p, s₀.heap p = none) {idle reaper shell : Ptr × Ptr × Ptr}
    (started : Scheduler.kmainThreads s₀ idle reaper shell = some s) (p : Ptr) :
    exiting s p = false ∧ ∀ pm, pagemapOf s p ≠ some (.user pm) := by
  have step : ∀ s s' q fds stack, Scheduler.createThread s q fds stack none = some s' →
      (∀ p, exiting s p = false ∧ ∀ pm, pagemapOf s p ≠ some (.user pm)) →
      ∀ p, exiting s' p = false ∧ ∀ pm, pagemapOf s' p ≠ some (.user pm) := by
    intro s s' q fds stack created before p
    obtain ⟨madeNew, madeOld, -⟩ := Scheduler.createThread_made created
    refine ⟨?_, ?_⟩
    · by_contra exits
      have old := (Scheduler.createThread_exiting created (Bool.eq_true_of_not_eq_false exits)).2
      rw [(before p).1] at old
      cases old
    · intro pm own
      rw [pagemapOf_eq] at own
      by_cases isNew : p = q
      · rw [isNew, madeNew] at own
        simp [Scheduler.Thread.made, Scheduler.initThread] at own
      · rw [madeOld p isNew, ← pagemapOf_eq] at own
        exact (before p).2 pm own
  have nobody : ∀ p, exiting s₀ p = false ∧ ∀ pm, pagemapOf s₀ p ≠ some (.user pm) := by
    intro p
    simp [exiting, pagemapOf, empty p]
  obtain ⟨s₁, first, started⟩ := Option.bind_eq_some_iff.mp started
  obtain ⟨s₂, second, third⟩ := Option.bind_eq_some_iff.mp started
  exact step _ _ _ _ _ third (step _ _ _ _ _ second (step _ _ _ _ _ first nobody)) p

/-- The machine when the threads of kmain are made. -/
def booted (s : Phys) (kernelTop : Nat) (sched : Sched) : World :=
  ⟨⟨sched, [], []⟩, ⟨s, kernelTop, [], []⟩, fun _ => none, []⟩

/-- In every run in which only threads with a pagemap of their own return or exit, the tables
of the kernel stay in use, and a round of the reaper deletes another pagemap than the
kernel's and changes none of these tables. -/
theorem reaping_keeps_kernel {hhdmOffset : Nat} {memmap : List MemmapEntry} {mem : Memory} {s₀ s : Phys}
    {boot : BootInfo} {ph : ProgramHeader} {kernelTop : Nat} {sched₀ sched : Sched}
    {idle reaper shell : Ptr × Ptr × Ptr} {w : World}
    (limine : LimineMap hhdmOffset memmap) (pmm : setupPmm hhdmOffset memmap mem = .ok s₀)
    (vmm : setupVmm boot s₀ = .ok (kernelTop, s)) (member : ph ∈ programHeaders boot.executable)
    (isLoad : ph.isLoad = true) (nonempty : 0 < ph.memSize) (high : kernelBase ≤ ph.virtAddr)
    (inside : ph.virtAddr + ph.memSize ≤ 2 ^ 64) (empty : ∀ p, sched₀.heap p = none)
    (noThreads : sched₀.threads = none) (noReap : sched₀.threadsToReap = none)
    (distinct : [idle.1, reaper.1, shell.1].Nodup)
    (started : Scheduler.kmainThreads sched₀ idle reaper shell = some sched)
    (moves : Moves idle.1 OwnPagemap (booted s kernelTop sched) w) :
    w.machine.kernelTop = kernelTop ∧ ∃ level, KernelTables w.machine.phys kernelTop level ∧
      ∀ ref w', Reaps w ref w' → ref ≠ .kernel ∧ w'.machine.kernelTop = kernelTop ∧
        KernelKept w.machine.phys w'.machine.phys level ∧
        ∀ q n, level q = some n → PageIs w'.machine.phys q .used := by
  obtain ⟨level₀, coherent⟩ := setupVmm_coherent limine pmm vmm member isLoad nonempty high inside
  have threads := kmainThreads_kernel empty started
  have sound : Sound idle.1 (booted s kernelTop sched) level₀ := by
    refine ⟨coherent, Scheduler.kmainThreads_safe empty noThreads noReap distinct started, ?_, ?_, ?_, ?_, ?_, ?_, ?_⟩
    · exact fun pm u none => by cases none
    · exact fun pm pm' u none => by cases none
    · exact fun pm none => absurd none List.not_mem_nil
    · exact fun p pm own => absurd own ((threads p).2 pm)
    · exact fun p q pm own => absurd own ((threads p).2 pm)
    · exact fun p _ => (threads p).1
    · exact fun p none => absurd none List.not_mem_nil
  obtain ⟨⟨level, after⟩, same⟩ := sound.moves moves
  have top : w.machine.kernelTop = kernelTop := same
  refine ⟨top, level, top ▸ after.coherent.kernel, ?_⟩
  intro ref w' reaps
  obtain ⟨sound', notKernel, same', kept⟩ := after.reap reaps
  exact ⟨notKernel, same'.trans top, kept, sound'.coherent.kernel.typed.used⟩

/-! Runs of the scheduler on the machine of `imageBoot`. -/

section Replay

variable {idle : Ptr} {guard : Sched → Prop} [DecidablePred guard] {w₀ w : World}

instance (s : Sched) (a : Action) : Decidable (Passes guard s a) :=
  match a with
  | .call .markExit => inferInstanceAs (Decidable (guard s))
  | .call (.create _ _ _ _) => isTrue trivial
  | .call (.markSleep _ _) => isTrue trivial
  | .call (.schedule _ _) => isTrue trivial
  | .call .reap => isTrue trivial
  | .take => isTrue trivial
  | .release _ => isTrue trivial

instance : DecidablePred OwnPagemap := fun _ => inferInstanceAs (Decidable (_ ≠ _))

def replayQuiet (idle : Ptr) (guard : Sched → Prop) [DecidablePred guard] : List Action → Reaper → Option Reaper
  | [], r => some r
  | a :: actions, r =>
    if a.quiet = true ∧ a.Enabled idle r ∧ Passes guard r.sched a then
      (a.exec 8 r).bind (replayQuiet idle guard actions)
    else none

theorem moves_of_replay {actions : List Action} {r' : Reaper} (moves : Moves idle guard w₀ w)
    (result : replayQuiet idle guard actions w.reaper = some r') : Moves idle guard w₀ { w with reaper := r' } := by
  induction actions generalizing w with
  | nil =>
    cases Option.some.inj result
    exact moves
  | cons a actions ih =>
    unfold replayQuiet at result
    split at result
    case isTrue allowed =>
      obtain ⟨quiet, enabled, passes⟩ := allowed
      obtain ⟨next, done, rest⟩ := Option.bind_eq_some_iff.mp result
      have moved : Moves idle guard w₀ { w with reaper := next } := moves.move (.act quiet enabled passes done)
      exact @ih { w with reaper := next } moved rest
    case isFalse => cases result

/- A thread is made in the middle of the run. -/
def replayMaking (idle : Ptr) (guard : Sched → Prop) [DecidablePred guard] (before : List Action)
    (p fds stack : Ptr) (pagemap : Option Ptr) (after : List Action) (r : Reaper) : Option Reaper :=
  (replayQuiet idle guard before r).bind fun r₁ =>
    (Scheduler.replayActions idle 8 [.call (.create p fds stack pagemap)] r₁).bind (replayQuiet idle guard after)

theorem moves_of_making {before after : List Action} {p fds stack : Ptr} {pagemap : Option Ptr} {r' : Reaper}
    (moves : Moves idle guard w₀ w) (spare : ∀ pm, pagemap = some pm → pm ∈ w.spare)
    (result : replayMaking idle guard before p fds stack pagemap after w.reaper = some r') :
    Moves idle guard w₀ { w with reaper := r', spare := w.spare.filter (fun pm => some pm ≠ pagemap) } := by
  obtain ⟨r₁, first, result⟩ := Option.bind_eq_some_iff.mp result
  obtain ⟨r₂, second, third⟩ := Option.bind_eq_some_iff.mp result
  have runs := moves_of_replay moves first
  unfold Scheduler.replayActions at second
  split at second
  case isTrue enabled =>
    obtain ⟨next, done, rest⟩ := Option.bind_eq_some_iff.mp second
    cases Option.some.inj rest
    have created := runs.move (Move.create spare enabled done)
    exact moves_of_replay created third
  case isFalse => cases second

end Replay

/- The shell makes a thread, which exits as soon as it runs, and the reaper takes it. -/
def makeAndExit (guard : Sched → Prop) [DecidablePred guard] (pagemap : Option Ptr) : Option Reaper :=
  replayMaking 1 guard [.call (.schedule true 10)] 4 104 0x40000 pagemap
    [.call (.schedule true 10), .call .markExit, .call (.schedule true 10), .call (.schedule true 10),
      .call (.schedule true 10), .call (.schedule true 10), .take] ⟨Scheduler.ringAtBoot, [], []⟩

theorem makeAndExit_kernel : (makeAndExit (fun _ => True) none).map
    (fun r => (r.taken, pagemapOf r.sched 4)) = some ([4], some .kernel) := by
  decide +kernel

theorem makeAndExit_user : (makeAndExit OwnPagemap (some 5)).map
    (fun r => (r.taken, pagemapOf r.sched 4)) = some ([4], some (.user 5)) := by
  decide +kernel

/-- A thread with a pagemap of its own is made, exits and is reaped. -/
theorem reaping_keeps_kernel_process : ∃ s kernelTop w w',
    Moves 1 OwnPagemap (booted s kernelTop Scheduler.ringAtBoot) w ∧ Reaps w (.user 5) w' ∧
      w'.machine.kernelTop = kernelTop := by
  obtain ⟨s₀, s, kernelTop, space, pmm, vmm, made, _, _, _⟩ := imageBoot_process
  obtain ⟨level, coherent⟩ := setupVmm_coherent Stdlib.kernelMap_limine pmm vmm imageBoot_segment rfl (by decide)
    (by decide) (by decide)
  obtain ⟨list, inv⟩ := coherent.inv
  obtain ⟨⟨list', inv'⟩, _, empty, _⟩ := newPagemap_spec inv made
  obtain ⟨own, _⟩ := emptyLowerHalf_userSpace empty
  obtain ⟨s', deleted⟩ : ∃ s', deletePagemap space.phys space.topLevel = .ok s' := by
    rcases deletePagemap_outcome inv' own with ⟨s', _, ran, _⟩ | ⟨_, v, inside, present, _⟩
    · exact ⟨s', ran⟩
    · rw [emptyLowerHalf_absent empty inside] at present
      cases present
  obtain ⟨r, run, outcome⟩ := Option.map_eq_some_iff.mp makeAndExit_user
  simp only [Prod.mk.injEq] at outcome
  obtain ⟨taken, user⟩ := outcome
  have process : Moves 1 OwnPagemap (booted s kernelTop Scheduler.ringAtBoot) _ :=
    Moves.start.move (@Move.newPagemap 1 OwnPagemap _ space 5 made rfl)
  have moves := moves_of_making process (by simp) run
  obtain ⟨t, there, isUser⟩ := Option.map_eq_some_iff.mp user
  have member : 4 ∈ r.taken := by
    rw [taken]
    exact List.mem_singleton_self 4
  refine ⟨s, kernelTop, _, _, moves, .intro member there isUser rfl deleted rfl, ?_⟩
  obtain ⟨sched, boot, -⟩ := @Scheduler.kmainThreads_ringState Scheduler.bootSched rfl rfl (1, 101, 0x10000)
    (2, 102, 0x20000) (3, 103, 0x30000) rfl rfl (by decide)
  have started : Scheduler.ringAtBoot = sched := by
    rw [Scheduler.ringAtBoot, boot]
    rfl
  rw [started] at moves
  exact (reaping_keeps_kernel Stdlib.kernelMap_limine pmm vmm imageBoot_segment rfl (by decide) (by decide)
    (by decide) (fun _ => rfl) rfl rfl (by decide) boot moves).1

/-- A thread made with NULL returns: the reaper gives delete_pagemap the pagemap of the kernel,
and when delete_pagemap is done the kernel has no top level. -/
theorem reaper_deletes_kernel : ∃ s₀ s kernelTop w p,
    setupPmm 0xFFFF800000000000 Stdlib.kernelMap (fun _ => 7) = .ok s₀ ∧
    setupVmm imageBoot s₀ = .ok (kernelTop, s) ∧
    Moves 1 (fun _ => True) (booted s kernelTop Scheduler.ringAtBoot) w ∧ p ∈ w.reaper.taken ∧
    pagemapOf w.reaper.sched p = some .kernel ∧ kernelTop ≠ 0 ∧ w.machine = ⟨s, kernelTop, [], []⟩ ∧
    ∀ s', deletePagemap s kernelTop = .ok s' →
      ∃ w', Reaps w .kernel w' ∧ w'.machine.kernelTop = 0 ∧ w'.machine.phys = s' := by
  obtain ⟨s₀, s, kernelTop, pmm, vmm, _, _⟩ := imageBoot_boots
  obtain ⟨level, coherent⟩ := setupVmm_coherent Stdlib.kernelMap_limine pmm vmm imageBoot_segment rfl (by decide)
    (by decide) (by decide)
  obtain ⟨r, run, outcome⟩ := Option.map_eq_some_iff.mp makeAndExit_kernel
  simp only [Prod.mk.injEq] at outcome
  obtain ⟨taken, kernel⟩ := outcome
  have moves : Moves 1 (fun _ => True) (booted s kernelTop Scheduler.ringAtBoot) _ :=
    moves_of_making .start (by simp) run
  have nonnull : kernelTop ≠ 0 := by
    obtain ⟨list, inv⟩ := coherent.inv
    obtain ⟨k, top, atTop⟩ := coherent.kernel.frame
    obtain ⟨_, positive, _⟩ := inv.layout.page_bounds (coherent.kernel.typed.used k 4 top)
    dsimp only at atTop
    omega
  refine ⟨s₀, s, kernelTop, _, 4, pmm, vmm, moves, ?_, kernel, nonnull, rfl, ?_⟩
  · rw [taken]
    exact List.mem_singleton_self 4
  · intro s' deleted
    obtain ⟨t, there, isKernel⟩ := Option.map_eq_some_iff.mp kernel
    have member : 4 ∈ r.taken := by
      rw [taken]
      exact List.mem_singleton_self 4
    exact ⟨_, .intro member there isKernel rfl deleted rfl, rfl, rfl⟩

end EvalynOS.Process
