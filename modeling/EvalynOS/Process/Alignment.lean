import EvalynOS.Process.Image

/-! load_elf on a segment of any alignment. The first address that is mapped is the start of
the segment rounded down to its own alignment, but the number of pages is counted from the
page of the start. -/
namespace EvalynOS.Process
open Lib Lib.Word Pmm Vmm

/- A write through the direct map. -/
structure FrameWrite where
  addr : Nat
  length : Nat
  byte : Nat → Nat

def FrameWrite.run (m : Memory) (write : FrameWrite) : Memory := m.writeBytes write.addr write.length write.byte

/- The writes of fillPage. -/
def fillWrites (file : File) (vpage offset src toCopy : Nat) : List FrameWrite :=
  let space := wsub pageSize offset
  (if offset ≠ 0 then [⟨vpage, offset, fun _ => 0⟩] else []) ++
  (if toCopy ≠ 0 then [⟨wadd vpage offset, toCopy, fun k => file (wadd src k)⟩] else []) ++
  (if toCopy < space then [⟨wadd (wadd vpage offset) toCopy, space - toCopy, fun _ => 0⟩] else [])

/- A round of the loop over the pages: the new page in the direct map, and the writes. -/
structure Round where
  page : Nat
  writes : List FrameWrite

/- The loop over the pages of a segment with its rounds. -/
def loadRounds (file : File) (topLevel flags vaddrOffset : Nat) :
    Nat → Bool → Nat → Nat → Nat → Phys → List Round × Except Panic Phys
  | 0, _, _, _, _, s => ([], .ok s)
  | count + 1, first, virt, src, fileRemaining, s =>
    match allocatePage s with
    | .error e => ([], .error e)
    | .ok (ppage, s) =>
      let vpage := wadd ppage s.hhdmOffset
      match vmmMapPage s topLevel virt ppage flags with
      | .error e => ([], .error e)
      | .ok s =>
        let offset := if first then vaddrOffset else 0
        let space := wsub pageSize offset
        let toCopy := min fileRemaining space
        let writes := fillWrites file vpage offset src toCopy
        let rest := loadRounds file topLevel flags vaddrOffset count false (wadd virt pageSize) (wadd src toCopy)
          (fileRemaining - toCopy) { s with mem := writes.foldl FrameWrite.run s.mem }
        (⟨vpage, writes⟩ :: rest.1, rest.2)

def segmentRounds (file : File) (space : AddressSpace) (ph : ProgramHeader) : List Round :=
  (loadRounds file space.topLevel ph.pteFlags ph.vaddrOffset ph.pagesToMap true ph.firstVirtAddr ph.offset
    ph.fileSize space.phys).1

/-- Every write is inside a page that one of the rounds allocated. -/
def WritesInside (rounds : List Round) : Prop :=
  ∀ round ∈ rounds, ∀ write ∈ round.writes, ∃ own ∈ rounds,
    own.page ≤ write.addr ∧ write.addr + write.length ≤ own.page + pageSize

namespace ProgramHeader

/- The alignment, where 0 and 1 are no alignment. -/
def step (ph : ProgramHeader) : Nat := max ph.alignment 1

/- What the flags of a segment let the program do. -/
def rights (ph : ProgramHeader) : Rights :=
  ⟨ph.flags &&& elfProgWrite ≠ 0, true, ph.flags &&& elfProgExecFlag = 0⟩

/- The segment where load_elf puts it, if that is in the page of its start. -/
def moved (ph : ProgramHeader) : ProgramHeader :=
  { ph with virtAddr := ph.virtAddr / pageSize * pageSize + ph.virtAddr % ph.step }

end ProgramHeader

/-- A segment of any alignment in the window of a new pagemap, with its data inside a file of
`size` bytes. -/
structure LegalSegment (size : Nat) (ph : ProgramHeader) : Prop where
  alignment : ph.alignment = 0 ∨ ∃ k, ph.alignment = 2 ^ k
  congruent : 1 < ph.alignment → ph.virtAddr % ph.alignment = ph.offset % ph.alignment
  nonempty : 0 < ph.fileSize
  small : ph.fileSize ≤ ph.memSize
  data : ph.offset + ph.fileSize ≤ size
  low : 0x1000 ≤ ph.virtAddr
  high : ph.virtAddr + ph.memSize ≤ 400000000000

/-- The segment is where its header says, and nothing else was written. -/
structure SegmentLands (file : File) (ph : ProgramHeader) (space space' : AddressSpace) : Prop where
  bytes : ∀ i < ph.memSize, readByte space'.phys space'.topLevel (ph.virtAddr + i) =
    some (if i < ph.fileSize then file (ph.offset + i) % 256 else 0)
  inside : WritesInside (segmentRounds file space ph)
  rights : ∀ i < ph.memSize, ∃ page, hardwareWalk space'.phys space'.topLevel (ph.virtAddr + i) =
    some (page, ph.rights)

/-- The start of the segment, rounded down to its alignment, is in the page of the start, and
is the start of that page unless all the data is zero. -/
structure SamePage (file : File) (ph : ProgramHeader) : Prop where
  near : ph.virtAddr % ph.step < pageSize
  front : ph.virtAddr % pageSize < ph.step ∨ ∀ i < ph.fileSize, file (ph.offset + i) % 256 = 0

/- All that is mapped has the same rights. -/
def OnlyRights (s : Phys) (top : Nat) (rights : Rights) : Prop :=
  ∀ v, v < 2 ^ 47 → isPresent (leaf s top v) = true → rightsOf (leaf s top v) = rights

section Rounds

variable {s s₁ s₂ : Phys} {file : File} {top flags vaddrOffset count virt src remaining p : Nat} {first : Bool}

theorem foldl_optional (m : Memory) (write : FrameWrite) {guard : Prop} [Decidable guard] :
    (if guard then [write] else []).foldl FrameWrite.run m = if guard then write.run m else m := by
  split
  · rfl
  · rfl

theorem fillPage_eq (m : Memory) (vpage offset toCopy : Nat) : fillPage m file vpage offset src toCopy =
    (fillWrites file vpage offset src toCopy).foldl FrameWrite.run m := by
  unfold fillPage fillWrites
  simp only [List.foldl_append, foldl_optional, FrameWrite.run]

/-- The loop with its rounds is the loop. -/
theorem loadRounds_result : (loadRounds file top flags vaddrOffset count first virt src remaining s).2 =
    loadPages file top flags vaddrOffset count first virt src remaining s := by
  induction count generalizing first virt src remaining s with
  | zero => rfl
  | succ count ih =>
    simp only [loadRounds, loadPages, bind, Except.bind]
    cases allocatePage s with
    | error e => rfl
    | ok pair =>
      simp only
      cases vmmMapPage pair.2 top virt pair.1 flags with
      | error e => rfl
      | ok s₂ =>
        simp only [ih, ← fillPage_eq]

theorem loadRounds_round (returned : allocatePage s = .ok (p, s₁)) (mapped : vmmMapPage s₁ top virt p flags = .ok s₂)
    {offset toCopy : Nat} (isOffset : (if first = true then vaddrOffset else 0) = offset)
    (isCopy : min remaining (wsub pageSize offset) = toCopy) :
    (loadRounds file top flags vaddrOffset (count + 1) first virt src remaining s).1 =
      ⟨wadd p s₁.hhdmOffset, fillWrites file (wadd p s₁.hhdmOffset) offset src toCopy⟩ ::
        (loadRounds file top flags vaddrOffset count false (wadd virt pageSize) (wadd src toCopy)
          (remaining - toCopy)
          { s₂ with mem := fillPage s₂.mem file (wadd p s₁.hhdmOffset) offset src toCopy }).1 := by
  simp only [loadRounds, returned, mapped, isOffset, isCopy, ← fillPage_eq]

theorem loadRounds_failed {e : Panic} (failed : mapNewPage s top virt flags = .error e) :
    (loadRounds file top flags vaddrOffset (count + 1) first virt src remaining s).1 = [] := by
  simp only [mapNewPage, bind, Except.bind] at failed
  simp only [loadRounds]
  cases page : allocatePage s with
  | error e => rfl
  | ok pair =>
    rw [page] at failed
    simp only at failed
    simp only [failed]

/-- The writes to a page stay inside it. -/
theorem fillWrites_inside {vpage offset toCopy : Nat} (bound : vpage + pageSize < 2 ^ 64)
    (inPage : offset ≤ pageSize) (fits : toCopy ≤ pageSize - offset) :
    ∀ write ∈ fillWrites file vpage offset src toCopy,
      vpage ≤ write.addr ∧ write.addr + write.length ≤ vpage + pageSize := by
  have space : wsub pageSize offset = pageSize - offset := wsub_eq (by decide) inPage
  have start : wadd vpage offset = vpage + offset := wadd_eq (by omega)
  have rest : wadd (vpage + offset) toCopy = vpage + offset + toCopy := wadd_eq (by omega)
  intro write member
  simp only [fillWrites, space, start, rest, List.mem_append] at member
  rcases member with (inFront | copied) | inBack
  · split at inFront
    · cases List.mem_singleton.mp inFront
      exact ⟨Nat.le_refl _, by change vpage + offset ≤ _; omega⟩
    · cases inFront
  · split at copied
    · cases List.mem_singleton.mp copied
      exact ⟨Nat.le_add_right _ _, by change vpage + offset + toCopy ≤ _; omega⟩
    · cases copied
  · split at inBack
    · cases List.mem_singleton.mp inBack
      exact ⟨by change vpage ≤ vpage + offset + toCopy; omega,
        by change vpage + offset + toCopy + (pageSize - offset - toCopy) ≤ _; omega⟩
    · cases inBack

end Rounds

section Run

variable {s s₁ s₂ : Phys} {file : File} {top v flags vaddrOffset p : Nat} {list : List Nat} {rights : Rights}
  {ph : ProgramHeader}

theorem rightsOf_entry (aligned : pageSize ∣ p) (physical : p < 2 ^ 52) (flags : Nat) :
    rightsOf (p ||| flags) = rightsOf flags := by
  unfold rightsOf
  rw [entry_bit aligned physical (by decide), entry_bit aligned physical (by decide),
    entry_bit aligned physical (by decide)]

theorem rightsOf_pteFlags (ph : ProgramHeader) : rightsOf (ptePresent ||| ph.pteFlags) = ph.rights := by
  unfold ProgramHeader.pteFlags ProgramHeader.rights
  by_cases writable : ph.flags &&& elfProgWrite = 0
  · by_cases executable : ph.flags &&& elfProgExecFlag = 0
    · simp only [writable, executable, ne_eq, not_true_eq_false, ↓reduceIte, decide_true, decide_false]
      decide
    · simp only [writable, executable, ne_eq, not_true_eq_false, ↓reduceIte, decide_false]
      decide
  · by_cases executable : ph.flags &&& elfProgExecFlag = 0
    · simp only [writable, executable, ne_eq, not_false_eq_true, ↓reduceIte, decide_true]
      decide
    · simp only [writable, executable, ne_eq, not_false_eq_true, ↓reduceIte, decide_true, decide_false]
      decide

/-- What is read is mapped, with the rights of its entry. -/
theorem hardwareWalk_of_read (opened : Open s top lowerHalf) (low : v < 2 ^ 47) {byte : Nat}
    (read : readByte s top v = some byte) : isPresent (leaf s top v) = true ∧
      hardwareWalk s top v = some (leaf s top v &&& pteMask, rightsOf (leaf s top v)) := by
  have inside := lowerHalf_pml4i low
  rw [readByte_eq opened inside] at read
  cases present : isPresent (leaf s top v) with
  | false =>
    rw [present] at read
    cases read
  | true => exact ⟨rfl, hardwareWalk_eq opened inside present⟩

/-- A round of the loop writes to the new page only, and maps it with the rights of the flags. -/
theorem Backed.round (inv : Inv s list) (backed : Backed s top) (offset : pageSize ∣ s.hhdmOffset)
    (low : v < 2 ^ 47) {front src toCopy : Nat} (inPage : front ≤ pageSize) (fits : toCopy ≤ pageSize - front)
    (returned : allocatePage s = .ok (p, s₁)) (mapped : vmmMapPage s₁ top v p flags = .ok s₂)
    (gives : rightsOf (ptePresent ||| flags) = rights) :
    wadd p s₁.hhdmOffset + pageSize < 2 ^ 64 ∧
      (OnlyRights s top rights → OnlyRights { s₂ with
        mem := fillPage s₂.mem file (wadd p s₁.hhdmOffset) front src toCopy } top rights) := by
  rcases @newPage_outcome s top flags lowerHalf list inv backed.tree v (lowerHalf_pml4i low) with
    ⟨p', s₁', s₂', list₂, returned', mapped', inv₂, new⟩ | ⟨failed, _⟩
  · cases Except.ok.inj (returned'.symm.trans returned)
    cases Except.ok.inj (mapped'.symm.trans mapped)
    obtain ⟨address, small, own⟩ := @newPage_own s top v list file lowerHalf inv offset flags p s₁ s₂ returned
      list₂ inv₂ new front src toCopy inPage fits
    obtain ⟨aligned, _, _, physical⟩ := inv₂.layout.page_bounds new.used
    obtain ⟨_, _, _, entry, others⟩ := newPage_written inv₂ new own
    refine ⟨address.symm ▸ small, ?_⟩
    intro only w lowW present
    have inside := lowerHalf_pml4i lowW
    by_cases same : pageBits w = pageBits v
    · rw [entry w inside same, rightsOf_entry aligned physical, gives]
    · rw [others w inside same] at present ⊢
      exact only w lowW present
  · simp only [mapNewPage, returned, mapped, bind, Except.bind] at failed
    cases failed

/-- The loop over the pages of a segment writes to its own pages, and maps all of them with the
rights of the flags. -/
theorem loadRounds_spec (isFlags : IsFlags flags) (user : flags.testBit 2 = true)
    (gives : rightsOf (ptePresent ||| flags) = rights) (small : vaddrOffset ≤ pageSize) (count : Nat) {first : Bool}
    {virt src remaining : Nat} (inv : Inv s list) (backed : Backed s top) (offset : pageSize ∣ s.hhdmOffset)
    (low : virt + count * pageSize ≤ 2 ^ 47) :
    (∀ round ∈ (loadRounds file top flags vaddrOffset count first virt src remaining s).1,
      ∀ write ∈ round.writes, round.page ≤ write.addr ∧ write.addr + write.length ≤ round.page + pageSize) ∧
    (OnlyRights s top rights → ∀ s', loadPages file top flags vaddrOffset count first virt src remaining s = .ok s' →
      OnlyRights s' top rights) := by
  induction count generalizing s list first virt src remaining with
  | zero =>
    refine ⟨fun round member => absurd member List.not_mem_nil, ?_⟩
    intro only s' ran
    cases Except.ok.inj ran
    exact only
  | succ count ih =>
    have below : virt < 2 ^ 47 := by
      rw [Nat.add_mul, Nat.one_mul] at low
      unfold pageSize at low
      omega
    have nextVirt : wadd virt pageSize = virt + pageSize := by
      apply wadd_eq
      unfold pageSize
      omega
    have nextLow : wadd virt pageSize + count * pageSize ≤ 2 ^ 47 := by
      rw [nextVirt]
      rw [Nat.add_mul, Nat.one_mul] at low
      omega
    generalize isFront : (if first = true then vaddrOffset else 0) = front
    have inPage : front ≤ pageSize := by
      rw [← isFront]
      split
      · exact small
      · exact Nat.zero_le _
    generalize isCopy : min remaining (wsub pageSize front) = toCopy
    have fits : toCopy ≤ pageSize - front := by
      have space : wsub pageSize front = pageSize - front := wsub_eq (by decide) inPage
      omega
    rcases @Backed.fill s top virt list file inv backed offset below flags isFlags user front src toCopy inPage fits with
      ⟨p, s₁, s₂, returned, mapped, one⟩ | ⟨failed, _⟩
    · obtain ⟨list₃, inv₃⟩ := one.inv
      obtain ⟨bound, kept⟩ := @Backed.round s s₁ s₂ file top virt flags p list rights inv backed offset below front src
        toCopy inPage fits returned mapped gives
      have rest := @ih _ list₃ false (wadd virt pageSize) (wadd src toCopy) (remaining - toCopy) inv₃ one.backed
        (one.hhdm.symm ▸ offset) nextLow
      rw [loadRounds_round returned mapped isFront isCopy, loadPages_round returned mapped, isFront, isCopy]
      refine ⟨?_, fun only => rest.2 (kept only)⟩
      intro round member
      rcases List.mem_cons.mp member with rfl | later
      · exact fillWrites_inside bound inPage fits
      · exact rest.1 round later
    · rw [loadRounds_failed failed, loadPages_failed failed]
      exact ⟨fun round member => absurd member List.not_mem_nil, fun _ s' ran => by cases ran⟩

end Run

section Numbers

variable {ph : ProgramHeader} {size : Nat} {file : File}

theorem LegalSegment.step_cases (legal : LegalSegment size ph) : ph.step ∣ pageSize ∨ pageSize ∣ ph.step := by
  unfold ProgramHeader.step
  rcases legal.alignment with none | ⟨k, power⟩
  · rw [none]
    exact .inl (by decide)
  · have positive : 0 < 2 ^ k := Nat.two_pow_pos k
    rw [power, Nat.max_eq_left positive]
    rcases Nat.le_total k 12 with small | large
    · exact .inl (Nat.pow_dvd_pow 2 small)
    · exact .inr (Nat.pow_dvd_pow 2 large)

theorem step_pos (ph : ProgramHeader) : 0 < ph.step := Nat.lt_of_lt_of_le Nat.one_pos (Nat.le_max_right _ _)

/-- Where the loop starts. -/
theorem LegalSegment.first (legal : LegalSegment size ph) (word : ph.alignment < 2 ^ 64) :
    ph.firstVirtAddr = ph.virtAddr - ph.virtAddr % ph.step ∧ ph.vaddrOffset = ph.virtAddr % ph.step := by
  have high := legal.high
  have first : ph.firstVirtAddr = ph.virtAddr - ph.virtAddr % ph.step := by
    unfold ProgramHeader.firstVirtAddr ProgramHeader.step
    split
    · rename_i aligned
      rw [Nat.max_eq_left (Nat.le_of_lt aligned)]
      rcases legal.alignment with none | ⟨k, power⟩
      · omega
      · have short : k ≤ 64 := by
          rw [power] at word
          exact Nat.le_of_lt ((Nat.pow_lt_pow_iff_right (by decide)).mp word)
        rw [power, alignDown_pow short (by omega)]
        have split := Nat.div_add_mod' ph.virtAddr (2 ^ k)
        omega
    · rw [Nat.max_eq_right (by omega), Nat.mod_one, Nat.sub_zero]
  refine ⟨first, ?_⟩
  have below : ph.virtAddr % ph.step ≤ ph.virtAddr := Nat.mod_le _ _
  unfold ProgramHeader.vaddrOffset
  rw [first, wsub_eq (by omega) (Nat.sub_le _ _)]
  omega

/-- The start of the loop against the page of the start of the segment. -/
theorem LegalSegment.page (legal : LegalSegment size ph) (near : ph.virtAddr % ph.step < pageSize) :
    (ph.virtAddr - ph.virtAddr % ph.step) / pageSize = ph.virtAddr / pageSize ∧
      ph.virtAddr % ph.step ≤ ph.virtAddr % pageSize ∧
      (ph.virtAddr % ph.step = ph.virtAddr % pageSize ↔ ph.virtAddr % pageSize < ph.step) := by
  have positive := step_pos ph
  have below : ph.virtAddr % ph.step < ph.step := Nat.mod_lt _ positive
  have order : ph.virtAddr % ph.step ≤ ph.virtAddr % pageSize ∧
      (ph.virtAddr % pageSize < ph.step → ph.virtAddr % ph.step = ph.virtAddr % pageSize) := by
    rcases legal.step_cases with fine | coarse
    · have inner : ph.virtAddr % pageSize % ph.step = ph.virtAddr % ph.step := Nat.mod_mod_of_dvd _ fine
      refine ⟨inner ▸ Nat.mod_le _ _, fun inStep => ?_⟩
      rw [← inner, Nat.mod_eq_of_lt inStep]
    · have inner : ph.virtAddr % ph.step % pageSize = ph.virtAddr % pageSize := Nat.mod_mod_of_dvd _ coarse
      rw [Nat.mod_eq_of_lt near] at inner
      exact ⟨Nat.le_of_eq inner, fun _ => inner⟩
  refine ⟨?_, order.1, fun same => same ▸ below, order.2⟩
  have front := order.1
  unfold pageSize at *
  omega

/-- A start that is rounded down out of its page is the start of a page. -/
theorem LegalSegment.far (legal : LegalSegment size ph) (far : pageSize ≤ ph.virtAddr % ph.step) :
    pageSize ∣ ph.virtAddr - ph.virtAddr % ph.step := by
  have below : ph.virtAddr % ph.step < ph.step := Nat.mod_lt _ (step_pos ph)
  have split := Nat.div_add_mod ph.virtAddr ph.step
  have whole : ph.virtAddr - ph.virtAddr % ph.step = ph.step * (ph.virtAddr / ph.step) := by omega
  rcases legal.step_cases with fine | coarse
  · have small := Nat.le_of_dvd (by decide) fine
    omega
  · rw [whole]
    exact Nat.dvd_mul_right_of_dvd coarse _

/-- Data that equals itself shifted, and zeros after it, is zero. -/
theorem zero_of_shift {data : Nat → Nat} {shift n m : Nat} (moved : 0 < shift) (small : n ≤ m)
    (beyond : ∀ i, n ≤ i → data i = 0) (same : ∀ i < m, data (i + shift) = data i) (i : Nat) : data i = 0 := by
  induction left : n - i using Nat.strong_induction_on generalizing i with
  | _ left ih =>
    by_cases past : n ≤ i
    · exact beyond i past
    · rw [← same i (by omega)]
      exact ih (n - (i + shift)) (by omega) (i + shift) rfl

end Numbers

section Segment

variable {s : Phys} {file : File} {ph : ProgramHeader} {size : Nat} {space : AddressSpace} {list : List Nat}

/-- Mapping looks at the page of the address only. -/
theorem vmmMapPage_congr {v w : Nat} (same : v / pageSize = w / pageSize) (top p flags : Nat) :
    vmmMapPage s top v p flags = vmmMapPage s top w p flags := by
  have bits : pageBits v = pageBits w := by
    unfold pageBits
    rw [Nat.shiftRight_eq_div_pow, Nat.shiftRight_eq_div_pow]
    exact congrArg (· &&& (2 ^ 36 - 1)) same
  obtain ⟨path, same1⟩ := pageBits_eq_iff.mp bits
  simp only [pathOf, List.cons.injEq, and_true] at path
  obtain ⟨same4, same3, same2⟩ := path
  unfold vmmMapPage vmmMapPageSized
  rw [same4, same3, same2, same1]

theorem loadPages_congr (count : Nat) {top flags vaddrOffset virt virt' src remaining : Nat} {first : Bool}
    (same : virt / pageSize = virt' / pageSize) :
    loadPages file top flags vaddrOffset count first virt src remaining s =
      loadPages file top flags vaddrOffset count first virt' src remaining s := by
  induction count generalizing s first virt virt' src remaining with
  | zero => rfl
  | succ count ih =>
    have next : wadd virt pageSize / pageSize = wadd virt' pageSize / pageSize := by
      unfold wadd pageSize at *
      omega
    simp only [loadPages, vmmMapPage_congr same, ih next]

theorem loadSegments_single {headers : List ProgramHeader} (single : headers.filter ProgramHeader.isLoad = [ph]) :
    loadSegments file headers space = loadSegment file space ph := by
  have none : ∀ rest : List ProgramHeader, rest.filter ProgramHeader.isLoad = [] →
      ∀ after, loadSegments file rest after = .ok after := by
    intro rest empty
    induction rest with
    | nil => exact fun after => rfl
    | cons other rest ih =>
      intro after
      have notLoad : ¬ other.isLoad = true := List.filter_eq_nil_iff.mp empty other List.mem_cons_self
      rw [List.filter_cons_of_neg notLoad] at empty
      simp only [loadSegments, loadSegment, if_pos notLoad, bind, Except.bind]
      exact ih empty after
  induction headers with
  | nil => cases single
  | cons other rest ih =>
    by_cases isLoad : other.isLoad = true
    · rw [List.filter_cons_of_pos isLoad] at single
      obtain ⟨same, empty⟩ := List.cons.inj single
      rw [same]
      simp only [loadSegments, bind, Except.bind]
      cases loadSegment file space ph with
      | error e => rfl
      | ok after => exact none rest empty after
    · rw [List.filter_cons_of_neg isLoad] at single
      simp only [loadSegments, loadSegment, if_pos isLoad, bind, Except.bind]
      exact ih single

theorem LegalSegment.pages (legal : LegalSegment size ph) :
    ph.pagesToMap = (ph.virtAddr + ph.memSize + (pageSize - 1)) / pageSize - ph.virtAddr / pageSize := by
  have nonempty := legal.nonempty
  have small := legal.small
  have high := legal.high
  apply pagesToMap_eq (by omega)
  unfold pageSize
  omega

/-- A segment that is rounded down inside its page fills its pages, moved to the front. -/
theorem LegalSegment.fills (legal : LegalSegment size ph) (word : ph.alignment < 2 ^ 64) (isLoad : ph.isLoad = true)
    (near : ph.virtAddr % ph.step < pageSize) (inv : Inv space.phys list)
    (backed : Backed space.phys space.topLevel) (offset : pageSize ∣ space.phys.hhdmOffset) :
    (∃ s' ranges', loadSegment file space ph = .ok ⟨s', space.topLevel, ranges'⟩ ∧
      Fills space.phys s' space.topLevel ph.pagesToMap (fun w before =>
        if ph.hasPage w then some (ph.moved.byteOf file w) else before)) ∨
    (loadSegment file space ph = .error .outOfMemory ∧
      space.phys.totalPages < space.phys.usedPages + 4 * ph.pagesToMap) := by
  obtain ⟨first, vaddrOffset⟩ := legal.first word
  obtain ⟨samePage, _, _⟩ := legal.page near
  have high := legal.high
  have pages := legal.pages
  have start : ph.virtAddr / pageSize * pageSize / pageSize = ph.virtAddr / pageSize :=
    Nat.mul_div_cancel _ (by decide)
  have order : ph.virtAddr / pageSize ≤ (ph.virtAddr + ph.memSize + (pageSize - 1)) / pageSize :=
    Nat.div_le_div_right (by omega)
  have pos : Position ph.moved (if true = true then ph.vaddrOffset else 0) (ph.virtAddr / pageSize * pageSize)
      ph.offset ph.fileSize := by
    rw [if_pos rfl, vaddrOffset]
    refine ⟨Nat.dvd_mul_left _ _, near, Nat.le_refl _, .inr rfl, ?_, ?_⟩
    · intro k
      simp only [ProgramHeader.moved, Nat.sub_self, Nat.min_zero, Nat.zero_add]
    · simp only [ProgramHeader.moved, Nat.sub_self, Nat.sub_zero]
  have low : ph.virtAddr / pageSize * pageSize + ph.pagesToMap * pageSize ≤ 2 ^ 47 := by
    rw [pages]
    unfold pageSize
    omega
  have same : ph.firstVirtAddr / pageSize = ph.virtAddr / pageSize * pageSize / pageSize := by
    rw [first, samePage, start]
  rcases @loadPages_fills space.phys space.topLevel list file ph.moved ph.pteFlags ph.vaddrOffset (isFlags_pteFlags ph)
      (user_pteFlags ph) ph.pagesToMap true (ph.virtAddr / pageSize * pageSize) ph.offset ph.fileSize inv backed offset
      low pos with ⟨s', ran, fills⟩ | ⟨failed, full⟩
  · left
    rw [← loadPages_congr _ same] at ran
    refine ⟨s', (Vma.vallocFixed space.ranges ph.reservedSize ph.firstVirtAddr false).2, ?_, fills.inv, fills.backed,
      fills.hhdm, fills.total, fills.cost, ?_⟩
    · simp only [loadSegment, isLoad, not_true_eq_false, ↓reduceIte, ran, bind, Except.bind]
    · intro w lowW
      rw [fills.reads w lowW, start, pages, Nat.add_sub_cancel' order]
      simp only [ProgramHeader.hasPage, decide_eq_true_eq]
  · right
    rw [← loadPages_congr _ same] at failed
    refine ⟨?_, full⟩
    simp only [loadSegment, isLoad, not_true_eq_false, ↓reduceIte, failed, bind, Except.bind]

/-- A segment that is rounded down by one page leaves out its last page. -/
theorem LegalSegment.misses (legal : LegalSegment size ph) (word : ph.alignment < 2 ^ 64) (isLoad : ph.isLoad = true)
    (far : ph.virtAddr % ph.step = pageSize) (bounded : size ≤ 2 ^ 64)
    (inv : Inv space.phys list) (backed : Backed space.phys space.topLevel)
    (offset : pageSize ∣ space.phys.hhdmOffset) :
    (∃ s' ranges', loadSegment file space ph = .ok ⟨s', space.topLevel, ranges'⟩ ∧
      readByte s' space.topLevel (ph.virtAddr + (ph.memSize - 1)) =
        readByte space.phys space.topLevel (ph.virtAddr + (ph.memSize - 1))) ∨
    (loadSegment file space ph = .error .outOfMemory ∧
      space.phys.totalPages < space.phys.usedPages + 4 * ph.pagesToMap) := by
  obtain ⟨first, vaddrOffset⟩ := legal.first word
  have aligned := legal.far (Nat.le_of_eq far.symm)
  have pages := legal.pages
  have high := legal.high
  have nonempty := legal.nonempty
  have small := legal.small
  have below : ph.virtAddr % ph.step ≤ ph.virtAddr := Nat.mod_le _ _
  rw [far] at first aligned vaddrOffset below
  obtain ⟨count, isCount⟩ : ∃ count, ph.pagesToMap = count + 1 := by
    refine ⟨ph.pagesToMap - 1, ?_⟩
    rw [pages]
    unfold pageSize at *
    omega
  have last : (ph.virtAddr + (ph.memSize - 1)) / pageSize = ph.virtAddr / pageSize + count := by
    rw [isCount] at pages
    unfold pageSize at *
    omega
  have lowFirst : ph.firstVirtAddr < 2 ^ 47 := by omega
  have next : wadd ph.firstVirtAddr pageSize = ph.virtAddr := by
    rw [first, wadd_eq (by omega)]
    omega
  have none : wsub pageSize pageSize = 0 := by decide
  have pos : Position ph (if false = true then ph.vaddrOffset else 0) ph.virtAddr ph.offset ph.fileSize := by
    rw [if_neg (by decide)]
    refine ⟨?_, by decide, Nat.le_refl _, .inl rfl, ?_, ?_⟩
    · have split : ph.virtAddr = (ph.virtAddr - pageSize) + pageSize := by omega
      rw [split]
      exact Nat.dvd_add aligned (Nat.dvd_refl _)
    · intro k
      simp only [Nat.add_zero, Nat.sub_self, Nat.min_zero, Nat.zero_add]
    · simp only [Nat.add_zero, Nat.sub_self, Nat.sub_zero]
  rw [isCount]
  rcases @Backed.fill space.phys space.topLevel ph.firstVirtAddr list file inv backed offset lowFirst ph.pteFlags
      (isFlags_pteFlags ph) (user_pteFlags ph) pageSize ph.offset 0 (Nat.le_refl _) (Nat.zero_le _) with
    ⟨p, s₁, s₂, returned, mapped, one⟩ | ⟨failed, full⟩
  · obtain ⟨list₃, inv₃⟩ := one.inv
    have offset₃ := offset
    rw [← one.hhdm] at offset₃
    have lowRest : ph.virtAddr + count * pageSize ≤ 2 ^ 47 := by
      rw [isCount] at pages
      unfold pageSize at *
      omega
    have unfolded := @loadPages_round space.topLevel file space.phys s₁ s₂ ph.pteFlags ph.vaddrOffset count
      ph.firstVirtAddr ph.offset ph.fileSize p true returned mapped
    rw [if_pos rfl, vaddrOffset, none, Nat.min_zero, Nat.sub_zero, next] at unfolded
    have source : wadd ph.offset 0 = ph.offset := by
      have data := legal.data
      exact wadd_eq (by omega)
    rw [source] at unfolded
    rcases @loadPages_fills _ space.topLevel list₃ file ph ph.pteFlags pageSize (isFlags_pteFlags ph)
        (user_pteFlags ph) count false ph.virtAddr ph.offset ph.fileSize inv₃ one.backed offset₃ lowRest pos with
      ⟨s', ran, rest⟩ | ⟨failed, full⟩
    · left
      refine ⟨s', (Vma.vallocFixed space.ranges ph.reservedSize ph.firstVirtAddr false).2, ?_, ?_⟩
      · simp only [loadSegment, isLoad, not_true_eq_false, ↓reduceIte, vaddrOffset, isCount, unfolded, ran, bind,
          Except.bind]
      · rw [rest.reads _ (by omega), one.reads _ (by omega), if_neg (by omega), if_neg ?_]
        rw [last, first]
        unfold pageSize at *
        omega
    · right
      have cost := one.cost
      have total := one.total
      refine ⟨?_, by omega⟩
      simp only [loadSegment, isLoad, not_true_eq_false, ↓reduceIte, vaddrOffset, isCount, unfolded, failed, bind,
        Except.bind]
  · right
    refine ⟨?_, by omega⟩
    simp only [loadSegment, isLoad, not_true_eq_false, ↓reduceIte, isCount, loadPages_failed failed, bind, Except.bind]

/-- A segment that is rounded down by more than a page is written to over the end of its first
page. -/
theorem LegalSegment.leaves (legal : LegalSegment size ph) (word : ph.alignment < 2 ^ 64) (isLoad : ph.isLoad = true)
    (far : pageSize < ph.virtAddr % ph.step) (inv : Inv space.phys list)
    (backed : Backed space.phys space.topLevel) :
    ¬ WritesInside (segmentRounds file space ph) ∨
    (loadSegment file space ph = .error .outOfMemory ∧
      space.phys.totalPages < space.phys.usedPages + 4 * ph.pagesToMap) := by
  obtain ⟨first, vaddrOffset⟩ := legal.first word
  have pages := legal.pages
  have high := legal.high
  have nonempty := legal.nonempty
  have small := legal.small
  obtain ⟨count, isCount⟩ : ∃ count, ph.pagesToMap = count + 1 := by
    refine ⟨ph.pagesToMap - 1, ?_⟩
    rw [pages]
    unfold pageSize at *
    omega
  have lowFirst : ph.firstVirtAddr < 2 ^ 47 := by omega
  rcases @newPage_outcome space.phys space.topLevel ph.pteFlags lowerHalf list inv backed.tree ph.firstVirtAddr
      (lowerHalf_pml4i lowFirst) with ⟨p, s₁, s₂, _, returned, mapped, _⟩ | ⟨failed, full⟩
  · left
    intro inside
    have front : ph.virtAddr % ph.step ≠ 0 := by omega
    unfold segmentRounds at inside
    rw [isCount, loadRounds_round returned mapped rfl rfl, if_pos rfl, vaddrOffset] at inside
    obtain ⟨own, _, low, top⟩ := inside _ List.mem_cons_self ⟨_, _, fun _ => 0⟩
      (List.mem_append_left _ (List.mem_append_left _ (by rw [if_pos front]; exact List.mem_singleton_self _)))
    simp only at low top
    omega
  · right
    have few := card_missingTables_le space.phys space.topLevel [ph.firstVirtAddr]
    simp only [List.length_cons, List.length_nil] at few
    refine ⟨?_, by omega⟩
    simp only [loadSegment, isLoad, not_true_eq_false, ↓reduceIte, isCount, loadPages_failed failed, bind, Except.bind]

/-- The byte of the moved segment at an address of the segment. -/
theorem LegalSegment.moved_byte (legal : LegalSegment size ph) (bounded : size ≤ 2 ^ 64)
    (near : ph.virtAddr % ph.step < pageSize) (i : Nat) :
    ph.moved.byteOf file (ph.virtAddr + i) =
      if i + (ph.virtAddr % pageSize - ph.virtAddr % ph.step) < ph.fileSize then
        file (ph.offset + (i + (ph.virtAddr % pageSize - ph.virtAddr % ph.step))) % 256 else 0 := by
  obtain ⟨_, order, _⟩ := legal.page near
  have data := legal.data
  have split := Nat.div_add_mod' ph.virtAddr pageSize
  generalize shifted : ph.virtAddr % pageSize - ph.virtAddr % ph.step = shift
  have start : ph.moved.virtAddr = ph.virtAddr / pageSize * pageSize + ph.virtAddr % ph.step := rfl
  have fileSize : ph.moved.fileSize = ph.fileSize := rfl
  have fileOffset : ph.moved.offset = ph.offset := rfl
  unfold ProgramHeader.byteOf
  by_cases inData : i + shift < ph.fileSize
  · have source : ph.virtAddr + i - ph.moved.virtAddr = i + shift := by omega
    rw [if_pos (by omega), if_pos inData, source, fileOffset, wadd_eq (by omega)]
  · rw [if_neg (by omega), if_neg inData]

/-- The moved segment shows what the header says exactly when it is not moved, or zero. -/
theorem LegalSegment.moved_iff (legal : LegalSegment size ph) (bounded : size ≤ 2 ^ 64)
    (near : ph.virtAddr % ph.step < pageSize) :
    (∀ i < ph.memSize, ph.moved.byteOf file (ph.virtAddr + i) =
      if i < ph.fileSize then file (ph.offset + i) % 256 else 0) ↔ SamePage file ph := by
  obtain ⟨_, order, same⟩ := legal.page near
  have small := legal.small
  constructor
  · intro shows
    refine ⟨near, ?_⟩
    by_cases front : ph.virtAddr % pageSize < ph.step
    · exact .inl front
    · have different : ph.virtAddr % ph.step ≠ ph.virtAddr % pageSize := fun equal => front (same.mp equal)
      right
      intro i inData
      have zero := @zero_of_shift (fun i => if i < ph.fileSize then file (ph.offset + i) % 256 else 0)
        (ph.virtAddr % pageSize - ph.virtAddr % ph.step) ph.fileSize ph.memSize (by omega) small
        (fun j past => if_neg (by omega)) (by
          intro j inside
          have shown := shows j inside
          rw [legal.moved_byte bounded near] at shown
          exact shown) i
      simp only [if_pos inData] at zero
      exact zero
  · intro samePage i inside
    rw [legal.moved_byte bounded near]
    rcases samePage.front with start | zeros
    · rw [same.mpr start, Nat.sub_self, Nat.add_zero]
    · split
      · rename_i inData
        rw [zeros _ inData, if_pos (by omega), zeros i (by omega)]
      · split
        · rename_i inData
          rw [zeros i inData]
        · rfl

/-- A segment that is rounded down inside its page is written inside its pages, and these have
the rights of its flags. -/
theorem LegalSegment.own (legal : LegalSegment size ph) (word : ph.alignment < 2 ^ 64) (isLoad : ph.isLoad = true)
    (near : ph.virtAddr % ph.step < pageSize) (inv : Inv space.phys list)
    (backed : Backed space.phys space.topLevel) (offset : pageSize ∣ space.phys.hhdmOffset) :
    WritesInside (segmentRounds file space ph) ∧
    (OnlyRights space.phys space.topLevel ph.rights → ∀ s' ranges',
      loadSegment file space ph = .ok ⟨s', space.topLevel, ranges'⟩ → OnlyRights s' space.topLevel ph.rights) := by
  obtain ⟨first, vaddrOffset⟩ := legal.first word
  have pages := legal.pages
  have high := legal.high
  have front : ph.vaddrOffset ≤ pageSize := vaddrOffset.symm ▸ Nat.le_of_lt near
  have low : ph.firstVirtAddr + ph.pagesToMap * pageSize ≤ 2 ^ 47 := by
    rw [first, pages]
    unfold pageSize
    omega
  obtain ⟨inside, only⟩ := @loadRounds_spec space.phys file space.topLevel ph.pteFlags ph.vaddrOffset list ph.rights
    (isFlags_pteFlags ph) (user_pteFlags ph) (rightsOf_pteFlags ph) front ph.pagesToMap true ph.firstVirtAddr ph.offset
    ph.fileSize inv backed offset low
  refine ⟨fun round member write written => ⟨round, member, inside round member write written⟩, ?_⟩
  intro before s' ranges' loaded
  simp only [loadSegment, isLoad, not_true_eq_false, ↓reduceIte, bind, Except.bind] at loaded
  split at loaded
  · cases loaded
  · rename_i ran
    cases Except.ok.inj loaded
    exact only before _ ran

end Segment

/-- load_elf on a file with one segment of any alignment, unless the memory is exhausted: it
returns with the segment where its header says, having written to the pages of the segment
only, exactly when the rounding to the alignment stays in the page of the start, and ends at
the start of that page or moves only zeros. -/
theorem segment_lands_iff {s : Phys} {list : List Nat} {kernelTop size : Nat} {space : AddressSpace} {file : File}
    {ph : ProgramHeader} (inv : Inv s list) (offset : pageSize ∣ s.hhdmOffset)
    (made : newPagemap s kernelTop = .ok space) (accepted : verifyElf64 file = true) (bounded : size ≤ 2 ^ 64)
    (single : (programHeaders file).filter ProgramHeader.isLoad = [ph]) (legal : LegalSegment size ph) :
    ((∃ info space', loadElf file space = .ok (info, space') ∧ SegmentLands file ph space space') ↔
      SamePage file ph) ∨
    (loadElf file space = .error .outOfMemory ∧
      space.phys.totalPages < space.phys.usedPages + 4 * ph.pagesToMap) := by
  obtain ⟨⟨list', inv'⟩, hhdm, empty, _⟩ := newPagemap_spec inv made
  have backed := EmptyLowerHalf.backed empty
  have offset' : pageSize ∣ space.phys.hhdmOffset := hhdm.symm ▸ offset
  have member : ph ∈ (programHeaders file).filter ProgramHeader.isLoad := single ▸ List.mem_singleton_self ph
  obtain ⟨inFile, isLoad⟩ := List.mem_filter.mp member
  have word : ph.alignment < 2 ^ 64 := by
    obtain ⟨i, _, rfl⟩ := List.mem_map.mp inFile
    exact number_lt file _ 8
  have ran : ∀ result, loadSegment file space ph = result → loadSegments file (programHeaders file) space = result :=
    fun result same => (loadSegments_single single).trans same
  have high := legal.high
  have small := legal.small
  have nonempty := legal.nonempty
  rcases Nat.lt_trichotomy (ph.virtAddr % ph.step) pageSize with near | onePage | farther
  · rcases legal.fills word isLoad near inv' backed offset' with ⟨s', ranges', loaded, fills⟩ | ⟨failed, full⟩
    · left
      have covered : ∀ i < ph.memSize, readByte s' space.topLevel (ph.virtAddr + i) =
          some (ph.moved.byteOf file (ph.virtAddr + i)) := by
        intro i inside
        rw [fills.reads _ (by omega), if_pos (covers_hasPage ⟨Nat.le_add_right _ _, by omega⟩)]
      obtain ⟨info, result⟩ := loadElf_loaded accepted (ran _ loaded)
      constructor
      · rintro ⟨info', space', result', lands⟩
        cases Except.ok.inj (result.symm.trans result')
        apply (legal.moved_iff bounded near).mp
        intro i inside
        exact Option.some.inj ((covered i inside).symm.trans (lands.bytes i inside))
      · intro samePage
        have shows := (legal.moved_iff bounded near).mpr samePage
        obtain ⟨inside, only⟩ := @LegalSegment.own file ph size space list' legal word isLoad near inv' backed offset'
        have onlyBefore : OnlyRights space.phys space.topLevel ph.rights := by
          intro v low present
          rw [emptyLowerHalf_leaf empty (lowerHalf_pml4i low), isPresent_zero] at present
          cases present
        have read : ∀ i < ph.memSize, readByte s' space.topLevel (ph.virtAddr + i) =
            some (if i < ph.fileSize then file (ph.offset + i) % 256 else 0) :=
          fun i here => (covered i here).trans (congrArg some (shows i here))
        refine ⟨info, _, result, read, inside, ?_⟩
        intro i here
        have low : ph.virtAddr + i < 2 ^ 47 := by omega
        have walked := hardwareWalk_of_read fills.backed.opened low (read i here)
        rw [only onlyBefore s' ranges' loaded _ low walked.1] at walked
        exact ⟨_, walked.2⟩
    · exact .inr ⟨loadElf_failed accepted (ran _ failed), full⟩
  · rcases legal.misses word isLoad onePage bounded inv' backed offset' with ⟨s', ranges', loaded, unread⟩ | ⟨failed, full⟩
    · left
      obtain ⟨info, result⟩ := loadElf_loaded accepted (ran _ loaded)
      constructor
      · rintro ⟨info', space', result', lands⟩
        cases Except.ok.inj (result.symm.trans result')
        have byte := lands.bytes (ph.memSize - 1) (by omega)
        have inside : lowerHalf (pml4i (ph.virtAddr + (ph.memSize - 1))) := lowerHalf_pml4i (by omega)
        rw [unread, readByte_eq backed.opened inside, emptyLowerHalf_leaf empty inside] at byte
        cases byte
      · intro samePage
        have near := samePage.near
        omega
    · exact .inr ⟨loadElf_failed accepted (ran _ failed), full⟩
  · rcases @LegalSegment.leaves file ph size space list' legal word isLoad farther inv' backed with outside | ⟨failed, full⟩
    · left
      constructor
      · rintro ⟨info', space', result', lands⟩
        exact absurd lands.inside outside
      · intro samePage
        have near := samePage.near
        omega
    · exact .inr ⟨loadElf_failed accepted (ran _ failed), full⟩

/- An executable with one segment: the first 16 bytes of the file and 16 zeros. -/
def alignedSegment (virtAddr alignment : Nat) : File := fun a =>
  (headerBytes 2 ++ [1, 0, 0, 0, 5, 0, 0, 0] ++ littleEndian 0 ++ littleEndian virtAddr ++ littleEndian 0 ++
    littleEndian 16 ++ littleEndian 32 ++ littleEndian alignment).getD a 0

theorem alignedSegment_legal {virtAddr k : Nat} (congruent : virtAddr % 2 ^ k = 0) (low : 0x1000 ≤ virtAddr)
    (high : virtAddr + 32 ≤ 400000000000) : LegalSegment 4096 ⟨1, 5, 0, virtAddr, 16, 32, 2 ^ k⟩ where
  alignment := .inr ⟨k, rfl⟩
  congruent := fun _ => congruent.trans (Nat.zero_mod _).symm
  nonempty := Nat.succ_pos 15
  small := Nat.le_add_right 16 16
  data := (show 0 + 16 ≤ 4096 by decide)
  low := low
  high := high

/-- A segment at a multiple of two pages. -/
theorem segment_lands_two_pages : ∃ space info space',
    loadElf (alignedSegment 0x400000 0x2000) space = .ok (info, space') ∧
      SegmentLands (alignedSegment 0x400000 0x2000) ⟨1, 5, 0, 0x400000, 16, 32, 0x2000⟩ space space' := by
  obtain ⟨s, list, space, inv, offset, made, _, _, room⟩ := smallProcess
  have single : (programHeaders (alignedSegment 0x400000 0x2000)).filter ProgramHeader.isLoad =
      [⟨1, 5, 0, 0x400000, 16, 32, 0x2000⟩] := by decide +kernel
  have accepted : verifyElf64 (alignedSegment 0x400000 0x2000) = true := by decide +kernel
  have samePage : SamePage (alignedSegment 0x400000 0x2000) ⟨1, 5, 0, 0x400000, 16, 32, 0x2000⟩ :=
    ⟨by decide, .inl (by decide)⟩
  have pages : ProgramHeader.pagesToMap ⟨1, 5, 0, 0x400000, 16, 32, 0x2000⟩ = 1 := by decide +kernel
  rcases segment_lands_iff inv offset made accepted (show 4096 ≤ 2 ^ 64 by decide) single
      (@alignedSegment_legal 0x400000 13 (by decide) (by decide) (by decide)) with lands | ⟨_, full⟩
  · obtain ⟨info, space', loaded, there⟩ := lands.mpr samePage
    exact ⟨space, info, space', loaded, there⟩
  · rw [pages] at full
    omega

/-- A segment of alignment 16 that does not start a page: its first byte is lost. -/
theorem segment_shifted : ∃ s list space info space', Inv s list ∧ pageSize ∣ s.hhdmOffset ∧
    newPagemap s 0xFFFF800000101000 = .ok space ∧ verifyElf64 (alignedSegment 0x400010 16) = true ∧
    (programHeaders (alignedSegment 0x400010 16)).filter ProgramHeader.isLoad = [⟨1, 5, 0, 0x400010, 16, 32, 16⟩] ∧
    LegalSegment 4096 ⟨1, 5, 0, 0x400010, 16, 32, 16⟩ ∧
    loadElf (alignedSegment 0x400010 16) space = .ok (info, space') ∧
    ¬ SegmentLands (alignedSegment 0x400010 16) ⟨1, 5, 0, 0x400010, 16, 32, 16⟩ space space' := by
  obtain ⟨s, list, space, inv, offset, made, agrees, _, room⟩ := smallProcess
  obtain ⟨⟨list', inv'⟩, _, empty, _⟩ := newPagemap_spec inv made
  have single : (programHeaders (alignedSegment 0x400010 16)).filter ProgramHeader.isLoad =
      [⟨1, 5, 0, 0x400010, 16, 32, 16⟩] := by decide +kernel
  have accepted : verifyElf64 (alignedSegment 0x400010 16) = true := by decide +kernel
  have legal : LegalSegment 4096 ⟨1, 5, 0, 0x400010, 16, 32, 16⟩ :=
    @alignedSegment_legal 0x400010 4 (by decide) (by decide) (by decide)
  have pages : ProgramHeader.pagesToMap ⟨1, 5, 0, 0x400010, 16, 32, 16⟩ = 1 := by decide +kernel
  rcases @LegalSegment.fills (alignedSegment 0x400010 16) ⟨1, 5, 0, 0x400010, 16, 32, 16⟩ 4096 space list' legal
      (by decide) rfl (by decide) inv' (EmptyLowerHalf.backed empty) agrees.offset with
    ⟨s', ranges', ran, fills⟩ | ⟨_, full⟩
  · obtain ⟨info, loaded⟩ := loadElf_loaded accepted ((loadSegments_single single).trans ran)
    refine ⟨s, list, space, info, _, inv, offset, made, accepted, single, legal, loaded, ?_⟩
    intro lands
    have first := lands.bytes 0 (by decide)
    have shown := fills.reads 0x400010 (by decide)
    rw [if_pos (by decide)] at shown
    cases shown.symm.trans first
  · rw [pages] at full
    omega

end EvalynOS.Process
