import EvalynOS.Libc.Malloc
import EvalynOS.Memory.VmmFrames

/-! The heap as its callers see it: the blocks that malloc has handed out and that were not given
to free. The pages that the heap needs for them are its own business, as long as it leaves all
other pages alone. -/
namespace EvalynOS.Stdlib
open Lib Lib.Word Pmm Vmm Heap

structure Ledger where
  live : Finset Nat
  frames : Finset Nat

/-- Work of the heap, and what callers write to their blocks: pages are taken and given back,
and no other page that is in use is written to. -/
structure Internal (s : Phys) (frames : Finset Nat) (s' : Phys) (frames' : Finset Nat) : Prop where
  inv : ∃ list, Inv s' list
  hhdm : s'.hhdmOffset = s.hhdmOffset
  pages : Pages s s'
  own : ∀ q ∈ frames', PageIs s' q .used
  others : ∀ q, PageIs s' q .used ∧ q ∉ frames' ↔ PageIs s q .used ∧ q ∉ frames
  mem : ∀ q, PageIs s q .used → q ∉ frames → ∀ a, InFrame s q a → s'.mem a = s.mem a

/- A call, with the block that malloc returns. -/
inductive HeapCall where
  | malloc (p : Nat)
  | free (p : Nat)

/-- malloc returns a block that nobody has, and free gets one that somebody has. -/
inductive HeapStep (s : Phys) (l : Ledger) : HeapCall → Phys → Ledger → Prop where
  | malloc {p : Nat} {s' : Phys} {frames' : Finset Nat} : p ∉ l.live → Internal s l.frames s' frames' →
      HeapStep s l (.malloc p) s' ⟨insert p l.live, frames'⟩
  | free {p : Nat} {s' : Phys} {frames' : Finset Nat} : p ∈ l.live → Internal s l.frames s' frames' →
      HeapStep s l (.free p) s' ⟨l.live.erase p, frames'⟩

inductive HeapRun : List HeapCall → Phys → Ledger → Phys → Ledger → Prop where
  | done {s : Phys} {l : Ledger} : HeapRun [] s l s l
  | call {c : HeapCall} {calls : List HeapCall} {s s₁ s' : Phys} {l l₁ l' : Ledger} :
      HeapStep s l c s₁ l₁ → HeapRun calls s₁ l₁ s' l' → HeapRun (c :: calls) s l s' l'

section Calls

variable {s s' s'' : Phys} {l l' : Ledger} {frames frames' frames'' : Finset Nat} {list : List Nat}
  {calls : List HeapCall}

theorem Internal.refl (inv : Inv s list) (own : ∀ q ∈ frames, PageIs s q .used) :
    Internal s frames s frames :=
  ⟨⟨list, inv⟩, rfl, fun _ page => page, own, fun _ => Iff.rfl, fun _ _ _ _ _ => rfl⟩

theorem Internal.trans (first : Internal s frames s' frames') (second : Internal s' frames' s'' frames'') :
    Internal s frames s'' frames'' := by
  refine ⟨second.inv, second.hhdm.trans first.hhdm, fun q page => first.pages q (second.pages q page),
    second.own, fun q => (second.others q).trans (first.others q), ?_⟩
  intro q used other a inFrame
  obtain ⟨used', other'⟩ := (first.others q).mpr ⟨used, other⟩
  rw [second.mem q used' other' a (by unfold InFrame; rw [first.hhdm]; exact inFrame)]
  exact first.mem q used other a inFrame

theorem HeapStep.internal {c : HeapCall} (step : HeapStep s l c s' l') : Internal s l.frames s' l'.frames := by
  cases step with
  | malloc _ work => exact work
  | free _ work => exact work

theorem HeapRun.internal (inv : Inv s list) (own : ∀ q ∈ l.frames, PageIs s q .used)
    (run : HeapRun calls s l s' l') : Internal s l.frames s' l'.frames := by
  induction run generalizing list with
  | done => exact .refl inv own
  | call step _ ih =>
    have work := step.internal
    obtain ⟨list₁, inv₁⟩ := work.inv
    exact work.trans (ih inv₁ work.own)

/- What is live after some calls. -/
def liveAfter (live : Finset Nat) : List HeapCall → Finset Nat
  | [] => live
  | .malloc p :: calls => liveAfter (insert p live) calls
  | .free p :: calls => liveAfter (live.erase p) calls

theorem HeapRun.live (run : HeapRun calls s l s' l') : l'.live = liveAfter l.live calls := by
  induction run with
  | done => rfl
  | call step _ ih =>
    cases step with
    | malloc => exact ih
    | free => exact ih

/-- A run of calls that allocate returns different blocks. -/
theorem HeapRun.mallocs {blocks : List Nat} (run : HeapRun (blocks.map .malloc) s l s' l') :
    blocks.Nodup ∧ (∀ p ∈ blocks, p ∉ l.live) ∧ l'.live = l.live ∪ blocks.toFinset := by
  induction blocks generalizing s l with
  | nil =>
    cases run
    simp
  | cons p blocks ih =>
    cases run with
    | call step rest =>
      cases step with
      | malloc fresh _ =>
        obtain ⟨nodup, new, live⟩ := ih rest
        refine ⟨List.nodup_cons.mpr ⟨fun member => new p member (Finset.mem_insert_self _ _), nodup⟩, ?_, ?_⟩
        · intro q member
          rcases List.mem_cons.mp member with rfl | later
          · exact fresh
          · exact fun alive => new q later (Finset.mem_insert_of_mem alive)
        · rw [live, List.toFinset_cons]
          ext q
          simp only [Finset.mem_union, Finset.mem_insert]
          tauto

theorem liveAfter_frees (live : Finset Nat) (blocks : List Nat) :
    liveAfter live (blocks.map .free) = live \ blocks.toFinset := by
  induction blocks generalizing live with
  | nil => simp [liveAfter]
  | cons p blocks ih =>
    rw [List.map_cons, liveAfter, ih, List.toFinset_cons]
    ext q
    simp only [Finset.mem_sdiff, Finset.mem_erase, Finset.mem_insert]
    tauto

/- Each call gets what it may get. -/
def Enabled (live : Finset Nat) : List HeapCall → Prop
  | [] => True
  | .malloc p :: calls => p ∉ live ∧ Enabled (insert p live) calls
  | .free p :: calls => p ∈ live ∧ Enabled (live.erase p) calls

instance Enabled.decidable (live : Finset Nat) : (calls : List HeapCall) → Decidable (Enabled live calls)
  | [] => isTrue trivial
  | .malloc p :: calls =>
    have := decidable (insert p live) calls
    inferInstanceAs (Decidable (_ ∧ _))
  | .free p :: calls =>
    have := decidable (live.erase p) calls
    inferInstanceAs (Decidable (_ ∧ _))

/-- The heap may have room for all blocks in the pages it has. -/
theorem Enabled.run (inv : Inv s list) (own : ∀ q ∈ l.frames, PageIs s q .used) (enabled : Enabled l.live calls) :
    HeapRun calls s l s ⟨liveAfter l.live calls, l.frames⟩ := by
  induction calls generalizing l with
  | nil => exact .done
  | cons c calls ih =>
    cases c with
    | malloc p => exact .call (.malloc enabled.1 (.refl inv own)) (@ih ⟨insert p l.live, l.frames⟩ own enabled.2)
    | free p => exact .call (.free enabled.1 (.refl inv own)) (@ih ⟨l.live.erase p, l.frames⟩ own enabled.2)

theorem enabled_frees {live : Finset Nat} {blocks : List Nat} (nodup : blocks.Nodup) (all : ∀ p ∈ blocks, p ∈ live) :
    Enabled live (blocks.map .free) := by
  induction blocks generalizing live with
  | nil => trivial
  | cons p blocks ih =>
    obtain ⟨once, later⟩ := List.nodup_cons.mp nodup
    refine ⟨all p List.mem_cons_self, ih later ?_⟩
    intro q member
    refine Finset.mem_erase.mpr ⟨?_, all q (List.mem_cons_of_mem p member)⟩
    rintro rfl
    exact once member

end Calls

end EvalynOS.Stdlib
