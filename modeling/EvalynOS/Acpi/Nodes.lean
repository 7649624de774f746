import EvalynOS.Acpi.Topology

/-! The nodes of the two lists: blocks of the heap, each with a link to the next one. -/
namespace EvalynOS.Topology
open Lib Lib.Word Pmm Vmm Heap Stdlib
open Vma (vallocInitWindow)
open Acpi (read32 IrqOveride)

/- A block of malloc with room for `size` bytes. -/
def IsBlock (k : Kernel) (live : List Nat) (p size : Nat) : Prop :=
  ∃ q ∈ live, p = q + 16 ∧ 16 ∣ q ∧ size + 16 ≤ k.phys.mem (objSizeAt (slabOf q))

section Blocks

variable {k k' : Kernel} {live live' list : List Nat} {runs : List (Nat × Nat)}
  {slabsOf free : Nat → List Nat} {p q size size' a value : Nat} {m : Lib.Memory}

theorem IsBlock.bounds (block : IsBlock k live p size) : 16 ≤ p ∧ 16 ∣ p := by
  obtain ⟨q, _, rfl, aligned, _⟩ := block
  omega

theorem IsBlock.kept (block : IsBlock k live p size) (more : ∀ q ∈ live, q ∈ live')
    (sizes : ∀ q ∈ live, k'.phys.mem (objSizeAt (slabOf q)) = k.phys.mem (objSizeAt (slabOf q))) :
    IsBlock k' live' p size := by
  obtain ⟨q, alive, place, aligned, room⟩ := block
  exact ⟨q, more q alive, place, aligned, (sizes q alive).symm ▸ room⟩

theorem IsBlock.inside (block : IsBlock k live p size) (low : p ≤ a) (high : a < p + size) :
    ∃ q ∈ live, p = q + 16 ∧ q ≤ a ∧ a < q + k.phys.mem (objSizeAt (slabOf q)) := by
  obtain ⟨q, alive, rfl, _, room⟩ := block
  exact ⟨q, alive, rfl, by omega, by omega⟩

theorem IsBlock.mayWrite (block : IsBlock k live p size) (low : p ≤ a) (high : a < p + size) :
    MayWrite k.heap live [] a := by
  obtain ⟨q, alive, _, inside⟩ := block.inside low high
  exact .inl ⟨q, alive, inside⟩

theorem IsBlock.direct (block : IsBlock k live p size) (inv : KernelInv k live runs slabsOf free list)
    (low : p ≤ a) (high : a < p + size) : k.phys.hhdmOffset ≤ a ∧ a < vallocInitWindow.lo := by
  obtain ⟨q, alive, _, inside⟩ := block.inside low high
  exact inv.object_direct alive inside

theorem IsBlock.apart (block : IsBlock k live p size) (other : IsBlock k live q size')
    (inv : KernelInv k live runs slabsOf free list) (different : p ≠ q) (low : p ≤ a) (high : a < p + size) :
    ¬ (q ≤ a ∧ a < q + size') := by
  rintro ⟨low', high'⟩
  obtain ⟨o, alive, rfl, inside⟩ := block.inside low high
  obtain ⟨o', alive', rfl, inside'⟩ := other.inside low' high'
  refine inv.heap.live_apart alive alive' ?_ inside inside'
  rintro rfl
  exact different rfl

/- Stores to the direct map. -/
theorem writeWord_direct (direct : k.phys.hhdmOffset ≤ a ∧ a < vallocInitWindow.lo) (m : Lib.Memory) :
    (k.withMem m).writeWord a value = .ok (k.withMem (m.store a value)) := by
  have here : (k.withMem m).translate a = some a := if_pos direct
  simp only [Kernel.writeWord, here]
  rfl

theorem writeBytes_direct (direct : k.phys.hhdmOffset ≤ a ∧ a < vallocInitWindow.lo) (m : Lib.Memory) :
    writeBytes (k.withMem m) a size value =
      .ok (k.withMem (m.writeBytes a size (fun i => value / 256 ^ i))) := by
  have here : (k.withMem m).translate a = some a := if_pos direct
  simp only [writeBytes, here]
  rfl

/-- Stores to blocks. -/
theorem store_keeps (inv : KernelInv k live runs slabsOf free list)
    (clients : ∀ a, ¬ MayWrite k.heap live [] a → m a = k.phys.mem a) :
    KernelInv (k.withMem m) live runs slabsOf free list ∧ Steady k (k.withMem m) ∧
      ∀ q ∈ live, (k.withMem m).phys.mem (objSizeAt (slabOf q)) = k.phys.mem (objSizeAt (slabOf q)) := by
  obtain ⟨inv', same⟩ := inv.write (noOwn k.heap slabsOf) (by simp) clients
  exact ⟨inv', same, fun q alive => objSize_kept inv.heap inv'.heap alive⟩

end Blocks

/- The value of a node is in its words other than the link. -/
def Local {β : Type} (view : Lib.Memory → Nat → β) (next size : Nat) : Prop :=
  ∀ (m m' : Lib.Memory) (p : Nat), 8 ∣ p → (∀ off, off < size → off ≠ next → m' (p + off) = m (p + off)) →
    view m' p = view m p

/-- The nodes of a list, and their values. -/
structure Nodes {β : Type} (view : Lib.Memory → Nat → β) (next size : Nat) (k : Kernel) (live : List Nat)
    (head tail : Nat) (l : List Nat) (values : List β) : Prop where
  queue : Queue (fun p => k.phys.mem (p + next)) head tail l
  blocks : ∀ p ∈ l, IsBlock k live p size
  distinct : l.Nodup
  values : l.map (view k.phys.mem) = values

section Lists

variable {β : Type} {view : Lib.Memory → Nat → β} {next size head tail p : Nat} {k k' : Kernel}
  {live live' list l : List Nat} {values : List β} {runs : List (Nat × Nat)} {slabsOf free : Nat → List Nat}

theorem Nodes.empty (k : Kernel) (live : List Nat) : Nodes view next size k live 0 0 [] [] :=
  ⟨Queue.nil _, by simp, List.nodup_nil, rfl⟩

/-- A list is kept by what keeps the words of its nodes. -/
theorem Nodes.frame (nodes : Nodes view next size k live head tail l values) (own : Local view next size)
    (inside : next < size) (more : ∀ q ∈ live, q ∈ live')
    (sizes : ∀ q ∈ live, k'.phys.mem (objSizeAt (slabOf q)) = k.phys.mem (objSizeAt (slabOf q)))
    (words : ∀ q ∈ l, ∀ off, off < size → k'.phys.mem (q + off) = k.phys.mem (q + off)) :
    Nodes view next size k' live' head tail l values where
  queue := nodes.queue.congr (fun q member => words q member next inside)
  blocks := fun q member => (nodes.blocks q member).kept more sizes
  distinct := nodes.distinct
  values := by
    rw [← nodes.values]
    apply List.map_congr_left
    intro q member
    have aligned := (nodes.blocks q member).bounds.2
    exact own _ _ q (by omega) (fun off small _ => words q member off small)

theorem Nodes.keeps (nodes : Nodes view next size k live head tail l values) (own : Local view next size)
    (inside : next < size) (more : ∀ q ∈ live, q ∈ live') (spares : Spares k k' live []) :
    Nodes view next size k' live' head tail l values := by
  apply nodes.frame own inside more spares.sizes
  intro q member off small
  exact spares.words _ ((nodes.blocks q member).mayWrite (Nat.le_add_right q off) (by omega))

/-- Another node behind the last one; the words of all other lists' nodes stay. -/
theorem Nodes.append (nodes : Nodes view next size k live head tail l values) (own : Local view next size)
    (inside : next < size) (inv : KernelInv k live runs slabsOf free list) (block : IsBlock k live p size)
    (fresh : p ∉ l) (stop : k.phys.mem (p + next) = 0) :
    ∃ head' m, append k head tail p next = .ok (head', p, k.withMem m) ∧
      Nodes view next size (k.withMem m) live head' p (l ++ [p]) (values ++ [view k.phys.mem p]) ∧
      KernelInv (k.withMem m) live runs slabsOf free list ∧ Steady k (k.withMem m) ∧
      (∀ q ∈ live, (k.withMem m).phys.mem (objSizeAt (slabOf q)) = k.phys.mem (objSizeAt (slabOf q))) ∧
      ∀ q room, IsBlock k live q room → q ∉ l → ∀ off, off < room →
        (k.withMem m).phys.mem (q + off) = k.phys.mem (q + off) := by
  have nonnull : p ≠ 0 := by
    have low := block.bounds.1
    omega
  have distinct : (l ++ [p]).Nodup := by
    refine List.nodup_append.mpr ⟨nodes.distinct, List.nodup_singleton p, ?_⟩
    intro q member r here
    cases List.mem_singleton.mp here
    rintro rfl
    exact fresh member
  unfold Topology.append
  by_cases first : head = 0
  · subst first
    have same : k.withMem k.phys.mem = k := rfl
    obtain ⟨inv', steady, sizes⟩ := @store_keeps k live list runs slabsOf free k.phys.mem inv (fun _ _ => rfl)
    refine ⟨p, k.phys.mem, by rw [if_pos rfl, same], ⟨?_, ?_, distinct, ?_⟩, inv', steady, sizes,
      fun _ _ _ _ _ _ => rfl⟩
    · exact nodes.queue.first nonnull stop
    · intro q member
      rcases List.mem_append.mp member with old | new
      · exact nodes.blocks q old
      · cases List.mem_singleton.mp new
        exact block
    · rw [List.map_append, ← nodes.values]
      rfl
  · rw [if_neg first]
    have last := nodes.queue.last_mem first
    have tailBlock := nodes.blocks tail last
    have direct := tailBlock.direct inv (Nat.le_add_right tail next) (by omega)
    have written : k.writeWord (tail + next) p = .ok (k.withMem (k.phys.mem.store (tail + next) p)) :=
      writeWord_direct direct k.phys.mem
    have clients : ∀ a, ¬ MayWrite k.heap live [] a → k.phys.mem.store (tail + next) p a = k.phys.mem a := by
      intro a outside
      apply Memory.store_other
      rintro rfl
      exact outside (tailBlock.mayWrite (Nat.le_add_right tail next) (by omega))
    obtain ⟨inv', steady, sizes⟩ := store_keeps inv clients
    -- the word of the link is in no other block
    have others : ∀ q room, IsBlock k live q room → q ≠ tail → ∀ off, off < room →
        k.phys.mem.store (tail + next) p (q + off) = k.phys.mem (q + off) := by
      intro q room blockQ different off small
      apply Memory.store_other
      intro same
      refine blockQ.apart tailBlock inv different (Nat.le_add_right q off) (by omega) ⟨?_, ?_⟩
      · omega
      · omega
    have apart : p ≠ tail := by
      rintro rfl
      exact fresh last
    refine ⟨head, _, by rw [written]; rfl, ⟨?_, ?_, distinct, ?_⟩, inv', steady, sizes, ?_⟩
    · refine nodes.queue.snoc first nonnull ?_ ?_ ?_ nodes.distinct
      · exact (others p size block apart next inside).trans stop
      · exact Memory.store_same _ _ _
      · exact fun q member different => others q size (nodes.blocks q member) different next inside
    · intro q member
      rcases List.mem_append.mp member with old | new
      · exact (nodes.blocks q old).kept (fun _ alive => alive) sizes
      · cases List.mem_singleton.mp new
        exact block.kept (fun _ alive => alive) sizes
    · have kept : ∀ q, IsBlock k live q size → view (k.phys.mem.store (tail + next) p) q = view k.phys.mem q := by
        intro q blockQ
        have aligned := blockQ.bounds.2
        apply own _ _ q (by omega)
        intro off small notLink
        by_cases here : q = tail
        · subst here
          exact Memory.store_other _ (by omega)
        · exact others q size blockQ here off small
      rw [List.map_append, ← nodes.values]
      congr 1
      · exact List.map_congr_left (fun q member => kept q (nodes.blocks q member))
      · exact congrArg (fun v => [v]) (kept p block)
    · intro q room blockQ notHere off small
      apply others q room blockQ ?_ off small
      rintro rfl
      exact notHere last

end Lists

/-! The two kinds of nodes. -/

def bytesOf (m : Lib.Memory) : Acpi.Memory := fun a => UInt8.ofNat (m.byteAt a)

/- The address and the first interrupt in struct ioapic_t, which has 24 bytes and its link at 16. -/
def ioapicAt (m : Lib.Memory) (p : Nat) : Nat × Nat := (m p, read32 (bytesOf m) (p + 8))

/- struct ioapic_irq_overide_t, with 16 bytes and its link at 8. -/
def overideAt (m : Lib.Memory) (p : Nat) : IrqOveride := ⟨m.byteAt p, m.byteAt (p + 1)⟩

/- The stores to a new node, but for the link. -/
def ioapicNode (m : Lib.Memory) (p address gsib : Nat) : Lib.Memory :=
  ((m.store p address).writeBytes (p + 8) 4 (fun i => gsib / 256 ^ i)).store (p + 16) 0

def overideNode (m : Lib.Memory) (p irq gsi : Nat) : Lib.Memory :=
  ((m.writeBytes p 1 (fun i => irq / 256 ^ i)).writeBytes (p + 1) 1 (fun i => gsi / 256 ^ i)).store (p + 8) 0

section Views

variable {m m' : Lib.Memory} {p address gsib irq gsi a : Nat}

theorem ioapicAt_local : Local ioapicAt 16 24 := by
  intro m m' p aligned agree
  have bytes : ∀ j, j < 4 → m'.byteAt (p + 8 + j) = m.byteAt (p + 8 + j) := by
    intro j small
    apply Memory.byteAt_congr
    have word : (p + 8 + j) / 8 * 8 = p + 8 := by omega
    rw [word]
    exact agree 8 (by decide) (by decide)
  have first := agree 0 (by decide) (by decide)
  rw [Nat.add_zero] at first
  have low := bytes 0 (by decide)
  rw [Nat.add_zero] at low
  unfold ioapicAt read32 bytesOf
  rw [first, low, bytes 1 (by decide), bytes 2 (by decide), bytes 3 (by decide)]

theorem overideAt_local : Local overideAt 8 16 := by
  intro m m' p aligned agree
  have first := agree 0 (by decide) (by decide)
  rw [Nat.add_zero] at first
  have bytes : ∀ j, j < 2 → m'.byteAt (p + j) = m.byteAt (p + j) := by
    intro j small
    apply Memory.byteAt_congr
    have word : (p + j) / 8 * 8 = p := by omega
    rw [word]
    exact first
  have low := bytes 0 (by decide)
  rw [Nat.add_zero] at low
  unfold overideAt
  rw [low, bytes 1 (by decide)]

theorem ioapicNode_outside (aligned : 8 ∣ p) (outside : ¬ (p ≤ a ∧ a < p + 24)) :
    ioapicNode m p address gsib a = m a := by
  unfold ioapicNode
  rw [Memory.store_other _ (by omega),
    Memory.writeBytes_outside _ aligned (Nat.le_add_right p 8) (show p + 8 + 4 ≤ p + 24 by omega) outside,
    Memory.store_other _ (by omega)]

theorem overideNode_outside (aligned : 8 ∣ p) (outside : ¬ (p ≤ a ∧ a < p + 16)) :
    overideNode m p irq gsi a = m a := by
  unfold overideNode
  rw [Memory.store_other _ (by omega),
    Memory.writeBytes_outside _ aligned (Nat.le_add_right p 1) (show p + 1 + 1 ≤ p + 16 by omega) outside,
    Memory.writeBytes_outside _ aligned (Nat.le_refl p) (show p + 1 ≤ p + 16 by omega) outside]

theorem ioapicNode_link : ioapicNode m p address gsib (p + 16) = 0 := Memory.store_same _ _ _

theorem overideNode_link : overideNode m p irq gsi (p + 8) = 0 := Memory.store_same _ _ _

theorem ioapicNode_value (aligned : 8 ∣ p) (bound : gsib < 2 ^ 32) :
    ioapicAt (ioapicNode m p address gsib) p = (address, gsib) := by
  have bytes : ∀ j, j < 4 → (ioapicNode m p address gsib).byteAt (p + 8 + j) = gsib / 256 ^ j % 256 := by
    intro j small
    unfold ioapicNode
    rw [Memory.byteAt_congr (Memory.store_other _ (by omega)), Memory.byteAt_writeBytes, if_pos (by omega),
      Nat.add_sub_cancel_left]
  have low := bytes 0 (by decide)
  rw [Nat.add_zero] at low
  have first : ioapicNode m p address gsib p = address := by
    unfold ioapicNode
    rw [Memory.store_other _ (by omega),
      Memory.writeBytes_outside _ (show 8 ∣ p + 8 by omega) (Nat.le_refl _) (Nat.le_refl _) (by omega),
      Memory.store_same]
  unfold ioapicAt read32 bytesOf
  rw [first, low, bytes 1 (by decide), bytes 2 (by decide), bytes 3 (by decide)]
  simp only [UInt8.toNat_ofNat', Prod.mk.injEq, true_and]
  omega

theorem overideNode_value (aligned : 8 ∣ p) (boundIrq : irq < 256) :
    overideAt (overideNode m p irq gsi) p = ⟨irq, gsi % 256⟩ := by
  unfold overideAt overideNode
  rw [Memory.byteAt_congr (Memory.store_other _ (by omega)), Memory.byteAt_congr (Memory.store_other _ (by omega)),
    Memory.byteAt_writeBytes, Memory.byteAt_writeBytes, Memory.byteAt_writeBytes, if_neg (by omega),
    if_pos (by omega), if_pos (by omega), Nat.sub_self, Nat.sub_self, Nat.pow_zero, Nat.div_one, Nat.div_one,
    Nat.mod_eq_of_lt boundIrq]

/- The stores, one after the other. -/
theorem overideNode_stored {k : Kernel} {next : Kernel → Call State}
    (direct : ∀ a, p ≤ a → a < p + 16 → k.phys.hhdmOffset ≤ a ∧ a < vallocInitWindow.lo) :
    (do
      let k ← act (writeBytes k p 1 irq)
      let k ← act (writeBytes k (p + 1) 1 gsi)
      let k ← act (k.writeWord (p + 8) 0)
      next k) = next (k.withMem (overideNode k.phys.mem p irq gsi)) := by
  have first : writeBytes k p 1 irq = .ok (k.withMem (k.phys.mem.writeBytes p 1 (fun i => irq / 256 ^ i))) :=
    writeBytes_direct (direct p (by omega) (by omega)) k.phys.mem
  rw [first, act_ok, writeBytes_direct (direct (p + 1) (by omega) (by omega)), act_ok,
    writeWord_direct (direct (p + 8) (by omega) (by omega)), act_ok]
  rfl

theorem ioapicNode_stored {k : Kernel} {next : Kernel → Call State}
    (direct : ∀ a, p ≤ a → a < p + 24 → k.phys.hhdmOffset ≤ a ∧ a < vallocInitWindow.lo) :
    (do
      let k ← act (k.writeWord p address)
      let k ← act (writeBytes k (p + 8) 4 gsib)
      let k ← act (k.writeWord (p + 16) 0)
      next k) = next (k.withMem (ioapicNode k.phys.mem p address gsib)) := by
  have first : k.writeWord p address = .ok (k.withMem (k.phys.mem.store p address)) :=
    writeWord_direct (direct p (by omega) (by omega)) k.phys.mem
  rw [first, act_ok, writeBytes_direct (direct (p + 8) (by omega) (by omega)), act_ok,
    writeWord_direct (direct (p + 16) (by omega) (by omega)), act_ok]
  rfl

end Views

end EvalynOS.Topology
