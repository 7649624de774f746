import EvalynOS.Process.Contained

/-! What a program reads after load_elf. Each segment fills new pages of its own, so that a
page in two segments shows the later one only. -/
namespace EvalynOS.Process
open Lib Lib.Word Pmm Vmm

/-- What a program reads at an address, if it may read there. -/
def readByte (s : Phys) (top v : Nat) : Option Nat :=
  match hardwareWalk s top v with
  | some (page, rights) =>
    if rights.user then some (s.mem.byteAt (page + s.hhdmOffset + v % pageSize)) else none
  | none => none

namespace ProgramHeader

def Covers (ph : ProgramHeader) (v : Nat) : Prop := ph.virtAddr ≤ v ∧ v < ph.virtAddr + ph.memSize

/- The page of the address is one of the pages of the segment. -/
def hasPage (ph : ProgramHeader) (v : Nat) : Bool :=
  ph.virtAddr / pageSize ≤ v / pageSize ∧ v / pageSize < (ph.virtAddr + ph.memSize + (pageSize - 1)) / pageSize

/-- The byte of a segment at an address: from the file, or zero. -/
def byteOf (file : File) (ph : ProgramHeader) (v : Nat) : Nat :=
  if ph.virtAddr ≤ v ∧ v < ph.virtAddr + ph.fileSize then file (wadd ph.offset (v - ph.virtAddr)) % 256 else 0

end ProgramHeader

/-- A segment in the window of a new pagemap, with its data inside a file of `size` bytes. -/
structure Loadable (size : Nat) (ph : ProgramHeader) : Prop where
  nonempty : 0 < ph.memSize
  low : 0x1000 ≤ ph.virtAddr
  high : ph.virtAddr + ph.memSize ≤ 400000000000
  alignment : ph.alignment = 4096
  congruent : ph.virtAddr % 4096 = ph.offset % 4096
  small : ph.fileSize ≤ ph.memSize
  data : ph.offset + ph.fileSize ≤ size

/-- The segments one over the other: the last one with the page of the address shows. -/
def overlay (file : File) (v : Nat) : List ProgramHeader → Option Nat → Option Nat
  | [], before => before
  | ph :: rest, before =>
    overlay file v rest (if ph.isLoad && ph.hasPage v then some (ph.byteOf file v) else before)

/- The pages that the segments take, each on its own. -/
def imagePages (headers : List ProgramHeader) : Nat :=
  ((headers.filter ProgramHeader.isLoad).map ProgramHeader.pagesToMap).sum

/-- No address lies in two segments. -/
def Disjoint (headers : List ProgramHeader) : Prop :=
  headers.Pairwise (fun one two => one.isLoad = true → two.isLoad = true → ∀ v, one.Covers v → ¬ two.Covers v)

/-- Where a page of a segment is shared with an earlier one, the earlier one is zero. -/
def NothingHidden (file : File) (headers : List ProgramHeader) : Prop :=
  headers.Pairwise (fun one two => one.isLoad = true → two.isLoad = true → ∀ v, one.Covers v →
    two.hasPage v = true → one.byteOf file v = 0)

/-- Every address of every segment is mapped for the program and reads as the file says. -/
def ImageRead (file : File) (headers : List ProgramHeader) (space : AddressSpace) : Prop :=
  ∀ ph ∈ headers, ph.isLoad = true → ∀ i < ph.memSize, readByte space.phys space.topLevel (ph.virtAddr + i) =
    some (if i < ph.fileSize then file (ph.offset + i) % 256 else 0)

/-- Loading a segment changes no byte of the segments before it. -/
def EarlierKept (file : File) (headers : List ProgramHeader) (space : AddressSpace) : Prop :=
  ∀ before ph rest space₁ space₂, headers = before ++ ph :: rest → loadSegments file before space = .ok space₁ →
    loadSegment file space₁ ph = .ok space₂ → ∀ earlier ∈ before, earlier.isLoad = true → ∀ i < earlier.memSize,
    readByte space₂.phys space₂.topLevel (earlier.virtAddr + i) =
      readByte space₁.phys space₁.topLevel (earlier.virtAddr + i)

/-- The pages in use that a process reads are no tables of it. -/
structure Backed (s : Phys) (top : Nat) : Prop where
  tree : Tree s top lowerHalf
  opened : Open s top lowerHalf
  leaves : ∀ v, lowerHalf (pml4i v) → isPresent (leaf s top v) = true →
    PageIs s (leaf s top v &&& pteMask) .used ∧ ¬ OwnsTable s top (leaf s top v &&& pteMask)

/-- A part of load_elf takes up to four pages of memory for each page it fills. What is read
afterwards depends on the address and what was read before. -/
structure Fills (s s' : Phys) (top : Nat) (count : Nat) (view : Nat → Option Nat → Option Nat) : Prop where
  inv : ∃ list, Inv s' list
  backed : Backed s' top
  hhdm : s'.hhdmOffset = s.hhdmOffset
  total : s'.totalPages = s.totalPages
  cost : s'.usedPages ≤ s.usedPages + 4 * count
  reads : ∀ v, v < 2 ^ 47 → readByte s' top v = view v (readByte s top v)

/-- Where the loop over the pages of a segment stands, with `front` bytes to leave out of the
page at `virt`. -/
structure Position (ph : ProgramHeader) (front virt src remaining : Nat) : Prop where
  page : pageSize ∣ virt
  inPage : front < pageSize
  reached : ph.virtAddr ≤ virt + front
  first : front = 0 ∨ virt + front = ph.virtAddr
  source : ∀ k, wadd src k = wadd ph.offset (min ph.fileSize (virt + front - ph.virtAddr) + k)
  left : remaining = ph.fileSize - (virt + front - ph.virtAddr)

section Reading

variable {s s' : Phys} {top v w : Nat} {list : List Nat}

/-- Nothing is found where the leaf entry is missing. -/
theorem hardwareWalk_none (absent : isPresent (leaf s top v) = false) : hardwareWalk s top v = none := by
  unfold hardwareWalk
  simp only
  apply if_neg
  intro all
  simp only [Bool.and_eq_true] at all
  obtain ⟨⟨⟨⟨⟨present4, present3⟩, _⟩, present2⟩, _⟩, present1⟩ := all
  have reached : descend (child s) top (pathOf v) = some (tableOf s (pte s (tableOf s (pte s (tableOf s
      (pte s top (pml4i v))) (pml3i v))) (pml2i v))) := by
    simp only [pathOf, descend, child, present4, present3, present2, ↓reduceIte, Option.bind_some]
  rw [leaf_of reached, present1] at absent
  cases absent

theorem readByte_eq (opened : Open s top lowerHalf) (inside : lowerHalf (pml4i v)) :
    readByte s top v = if isPresent (leaf s top v) && (leaf s top v).testBit 2 then
      some (s.mem.byteAt ((leaf s top v &&& pteMask) + s.hhdmOffset + v % pageSize)) else none := by
  unfold readByte
  cases present : isPresent (leaf s top v) with
  | false =>
    rw [hardwareWalk_none present]
    rfl
  | true =>
    rw [hardwareWalk_eq opened inside present]
    rfl

/-- The bytes of a page are in its frame. -/
theorem byte_inFrame {q x : Nat} (aligned : 8 ∣ q + s.hhdmOffset) (inside : x < pageSize) :
    InFrame s q ((q + s.hhdmOffset + x) / 8 * 8) := by
  unfold InFrame
  unfold pageSize at *
  omega

/-- A write that is left out when it is empty. -/
theorem byteAt_guarded (m : Memory) {n : Nat} (byte : Nat → Nat) {guard : Prop} [Decidable guard]
    (needed : n ≠ 0 → guard) (p a : Nat) : (if guard then m.writeBytes p n byte else m).byteAt a =
      if p ≤ a ∧ a < p + n then byte (a - p) % 256 else m.byteAt a := by
  split
  · exact Memory.byteAt_writeBytes m p n byte a
  · rename_i skipped
    have empty : n = 0 := by
      by_contra nonzero
      exact skipped (needed nonzero)
    rw [if_neg (by omega)]

/-- The bytes of a new page. -/
theorem fillPage_byte {m : Memory} {file : File} {vpage offset src toCopy x : Nat}
    (bound : vpage + pageSize < 2 ^ 64) (inPage : offset ≤ pageSize) (fits : toCopy ≤ pageSize - offset)
    (inside : x < pageSize) : (fillPage m file vpage offset src toCopy).byteAt (vpage + x) =
      if offset ≤ x ∧ x < offset + toCopy then file (wadd src (x - offset)) % 256 else 0 := by
  have space : wsub pageSize offset = pageSize - offset := wsub_eq (by decide) inPage
  have start : wadd vpage offset = vpage + offset := wadd_eq (by omega)
  have rest : wadd (vpage + offset) toCopy = vpage + offset + toCopy := wadd_eq (by omega)
  have place : vpage + x - (vpage + offset) = x - offset := by omega
  simp only [fillPage, space, start, rest]
  rw [byteAt_guarded _ _ (by omega), byteAt_guarded _ _ id, byteAt_guarded _ _ id, place]
  by_cases front : x < offset
  · rw [if_neg (by omega), if_neg (by omega), if_pos (by omega), if_neg (by omega)]
  · by_cases copied : x < offset + toCopy
    · rw [if_neg (by omega), if_pos (by omega), if_pos (by omega)]
    · rw [if_pos (by omega), if_neg (by omega)]

end Reading

section Filling

variable {s s' s'' : Phys} {top v : Nat} {list : List Nat} {file : File}

theorem Fills.trans {count count' : Nat} {view view' : Nat → Option Nat → Option Nat}
    (one : Fills s s' top count view) (two : Fills s' s'' top count' view') :
    Fills s s'' top (count + count') (fun v before => view' v (view v before)) := by
  refine ⟨two.inv, two.backed, two.hhdm.trans one.hhdm, two.total.trans one.total, ?_, ?_⟩
  · have first := one.cost
    have second := two.cost
    omega
  · intro v low
    rw [two.reads v low, one.reads v low]

/-- What is read elsewhere stays when the pages in use that are no tables stay. -/
theorem Backed.same_byte (backed : Backed s top) (low : v < 2 ^ 47) (offset : pageSize ∣ s.hhdmOffset)
    (layout : Layout s.hhdmOffset s.tables) (opened : Open s' top lowerHalf)
    (hhdm : s'.hhdmOffset = s.hhdmOffset) (sameLeaf : leaf s' top v = leaf s top v)
    (mem : ∀ q, PageIs s q .used → ¬ OwnsTable s top q → ∀ a, InFrame s q a → s'.mem a = s.mem a) :
    readByte s' top v = readByte s top v := by
  have inside := lowerHalf_pml4i low
  rw [readByte_eq opened inside, readByte_eq backed.opened inside, sameLeaf, hhdm]
  cases present : isPresent (leaf s top v) with
  | false => rfl
  | true =>
    obtain ⟨used, notTable⟩ := backed.leaves v inside present
    have aligned : 8 ∣ (leaf s top v &&& pteMask) + s.hhdmOffset :=
      Dvd.dvd.trans (by decide) (Nat.dvd_add (layout.page_bounds used).1 offset)
    have same : s'.mem.byteAt ((leaf s top v &&& pteMask) + s.hhdmOffset + v % pageSize) =
        s.mem.byteAt ((leaf s top v &&& pteMask) + s.hhdmOffset + v % pageSize) :=
      Memory.byteAt_congr (mem _ used notTable _ (byte_inFrame aligned (Nat.mod_lt _ (by decide))))
    rw [same]

/-- The tables and the entries after a write to the new page. -/
theorem newPage_written {flags p : Nat} {list' : List Nat} (inv' : Inv s' list')
    (new : NewPage s s' top lowerHalf v flags p) {mem : Memory}
    (own : ∀ a, ¬ InFrame s' p a → mem a = s'.mem a) :
    Tree { s' with mem := mem } top lowerHalf ∧
    (∀ path, Valid lowerHalf path →
      descend (child { s' with mem := mem }) top path = descend (child s') top path) ∧
    (Open s top lowerHalf → Open { s' with mem := mem } top lowerHalf) ∧
    (∀ w, lowerHalf (pml4i w) → pageBits w = pageBits v →
      leaf { s' with mem := mem } top w = p ||| (ptePresent ||| flags)) ∧
    ∀ w, lowerHalf (pml4i w) → pageBits w ≠ pageBits v → leaf { s' with mem := mem } top w = leaf s top w := by
  obtain ⟨tree, lookup, opens, leaves⟩ := @Tree.frame s' { s' with mem := mem } top lowerHalf new.tree rfl
    (fun _ used => used) (by
      intro path q valid here used a inQ
      apply own
      intro inP
      have noTable := new.notTable path valid
      rw [← new.kept.hhdm] at noTable
      exact noTable (frame_apart inv'.layout used new.used inQ inP ▸ here))
  refine ⟨tree, lookup, fun opened => opens (new.opens opened), ?_, ?_⟩
  · intro w inside same
    rw [leaves w inside, leaf_congr same]
    exact new.entry
  · intro w inside different
    rw [leaves w inside]
    exact new.others w inside different

/-- A new page is mapped at `v`, and written to. -/
theorem Backed.write_new (inv : Inv s list) (backed : Backed s top) (offset : pageSize ∣ s.hhdmOffset)
    (low : v < 2 ^ 47) {flags : Nat} (isFlags : IsFlags flags) (user : flags.testBit 2 = true) {p : Nat}
    {list' : List Nat} (inv' : Inv s' list') (new : NewPage s s' top lowerHalf v flags p) {mem : Memory}
    (own : ∀ a, ¬ InFrame s' p a → mem a = s'.mem a) :
    Fills s { s' with mem := mem } top 1 (fun w before => if w / pageSize = v / pageSize then
      some (mem.byteAt (p + s'.hhdmOffset + w % pageSize)) else before) := by
  have hhdm : s'.hhdmOffset = s.hhdmOffset := new.kept.hhdm
  obtain ⟨aligned, _, _, physical⟩ := inv'.layout.page_bounds new.used
  obtain ⟨present, masked⟩ := isFlags.entry aligned physical
  have notTable : ∀ path, Valid lowerHalf path → descend (child s') top path ≠ some (p + s'.hhdmOffset) := by
    rw [hhdm]
    exact new.notTable
  obtain ⟨tree, lookup, opens, entry, others⟩ := newPage_written inv' new own
  have opened := opens backed.opened
  have tables : ∀ q, OwnsTable { s' with mem := mem } top q → OwnsTable s top q ∨ ¬ PageIs s q .used := by
    rintro q ⟨path, valid, here⟩
    rw [lookup path valid] at here
    change descend (child s') top path = some (q + s'.hhdmOffset) at here
    rw [hhdm] at here
    rcases new.kept.tables path _ valid here with old | ⟨r, unused, same⟩
    · exact .inl ⟨path, valid, old⟩
    · have equal : q = r := by omega
      exact .inr (equal ▸ unused)
  refine ⟨⟨list', inv'.write (fun a outside => own a (outside p new.used))⟩, ⟨tree, opened, ?_⟩, hhdm,
    new.kept.total, ?_, ?_⟩
  · intro w inside presentW
    by_cases same : pageBits w = pageBits v
    · rw [entry w inside same, masked]
      refine ⟨new.used, ?_⟩
      rintro ⟨path, valid, here⟩
      rw [lookup path valid] at here
      exact notTable path valid here
    · rw [others w inside same] at presentW ⊢
      obtain ⟨used, noTable⟩ := backed.leaves w inside presentW
      refine ⟨new.kept.used _ used, ?_⟩
      intro table
      rcases tables _ table with old | unused
      · exact noTable old
      · exact unused used
  · have few := card_missingTables_le s top [v]
    have cost := new.made.cost
    simp only [List.length_cons, List.length_nil] at few
    change s'.usedPages ≤ s.usedPages + 4 * 1
    omega
  · intro w lowW
    have inside := lowerHalf_pml4i lowW
    by_cases same : w / pageSize = v / pageSize
    · have bits : pageBits w = pageBits v := (pageBits_lower lowW low).mpr same
      have userBit : (p ||| (ptePresent ||| flags)).testBit 2 = true := by
        rw [entry_bit aligned physical (by decide), Nat.testBit_or, user, Bool.or_true]
      rw [readByte_eq opened inside, entry w inside bits, present, userBit, masked, if_pos same]
      rfl
    · have different : pageBits w ≠ pageBits v := fun bits => same ((pageBits_lower lowW low).mp bits)
      rw [if_neg same]
      apply backed.same_byte lowW offset inv.layout opened hhdm (others w inside different)
      intro q used noTable a inQ
      have before : s'.mem a = s.mem a :=
        new.kept.mem q used (fun path valid here => noTable ⟨path, valid, here⟩) a inQ
      rw [← before]
      apply own
      intro inP
      have inQ' : InFrame s' q a := by
        unfold InFrame
        rw [hhdm]
        exact inQ
      have equal := frame_apart inv'.layout (new.kept.used q used) new.used inQ' inP
      exact new.unused (equal ▸ used)

/-- The writes to a new page stay in its frame. -/
theorem newPage_own {region : Nat → Prop} (inv : Inv s list) (offset : pageSize ∣ s.hhdmOffset)
    {flags p : Nat} {s₁ s₂ : Phys} (returned : allocatePage s = .ok (p, s₁)) {list₂ : List Nat} (inv₂ : Inv s₂ list₂)
    (new : NewPage s s₂ top region v flags p) {front src toCopy : Nat} (inPage : front ≤ pageSize)
    (fits : toCopy ≤ pageSize - front) :
    wadd p s₁.hhdmOffset = p + s₂.hhdmOffset ∧ p + s₂.hhdmOffset + pageSize < 2 ^ 64 ∧
      ∀ a, ¬ InFrame s₂ p a → fillPage s₂.mem file (wadd p s₁.hhdmOffset) front src toCopy a = s₂.mem a := by
  have hhdm : s₁.hhdmOffset = s₂.hhdmOffset := by
    rw [new.kept.hhdm]
    rcases allocatePage_outcome inv with ⟨p', s', list', returned', _, allocated⟩ | ⟨failed, _⟩
    · cases Except.ok.inj (returned'.symm.trans returned)
      exact allocated.hhdm
    · cases failed.symm.trans returned
  obtain ⟨aligned, _, bound, _⟩ := inv₂.layout.page_bounds new.used
  have small : p + s₂.hhdmOffset + pageSize < 2 ^ 64 := by omega
  have address : wadd p s₁.hhdmOffset = p + s₂.hhdmOffset := by
    rw [hhdm]
    exact wadd_eq (by omega)
  have offset₂ : pageSize ∣ s₂.hhdmOffset := new.kept.hhdm.symm ▸ offset
  refine ⟨address, small, ?_⟩
  rw [address]
  intro a notHere
  apply fillPage_outside (Dvd.dvd.trans (by decide) (Nat.dvd_add aligned offset₂)) small inPage _ notHere
  rw [wsub_eq (by decide) inPage]
  exact fits

/-- One round of the loop over the pages of a segment. -/
theorem Backed.fill (inv : Inv s list) (backed : Backed s top) (offset : pageSize ∣ s.hhdmOffset)
    (low : v < 2 ^ 47) {flags : Nat} (isFlags : IsFlags flags) (user : flags.testBit 2 = true)
    {front src toCopy : Nat} (inPage : front ≤ pageSize) (fits : toCopy ≤ pageSize - front) :
    (∃ p s₁ s₂, allocatePage s = .ok (p, s₁) ∧ vmmMapPage s₁ top v p flags = .ok s₂ ∧
      Fills s { s₂ with mem := fillPage s₂.mem file (wadd p s₁.hhdmOffset) front src toCopy } top 1
        (fun w before => if w / pageSize = v / pageSize then
          some (if front ≤ w % pageSize ∧ w % pageSize < front + toCopy then
            file (wadd src (w % pageSize - front)) % 256 else 0)
        else before)) ∨
    (mapNewPage s top v flags = .error .outOfMemory ∧ s.totalPages < s.usedPages + 4) := by
  rcases @newPage_outcome s top flags lowerHalf list inv backed.tree v (lowerHalf_pml4i low) with
    ⟨p, s₁, s₂, list₂, returned, mapped, inv₂, new⟩ | ⟨failed, full⟩
  · left
    obtain ⟨address, small, own⟩ := newPage_own inv offset returned inv₂ new inPage fits
    refine ⟨p, s₁, s₂, returned, mapped, ?_⟩
    rw [address] at own ⊢
    have fills := backed.write_new inv offset low isFlags user inv₂ new own
    refine ⟨fills.inv, fills.backed, fills.hhdm, fills.total, fills.cost, ?_⟩
    intro w lowW
    rw [fills.reads w lowW, fillPage_byte small inPage fits (Nat.mod_lt _ (by decide))]
  · have few := card_missingTables_le s top [v]
    simp only [List.length_cons, List.length_nil] at few
    exact .inr ⟨failed, by omega⟩

end Filling

section Segments

variable {s s' : Phys} {top : Nat} {list : List Nat} {file : File} {ph : ProgramHeader}

theorem wadd_assoc (a b c : Nat) : wadd (wadd a b) c = wadd a (b + c) := by
  unfold wadd
  rw [Nat.mod_add_mod, Nat.add_assoc]

theorem Position.next {front virt src remaining : Nat} (pos : Position ph front virt src remaining) :
    Position ph 0 (virt + pageSize) (wadd src (min remaining (pageSize - front)))
      (remaining - min remaining (pageSize - front)) := by
  have reached := pos.reached
  have inPage := pos.inPage
  refine ⟨Nat.dvd_add pos.page (Nat.dvd_refl _), by decide, by omega, .inl rfl, ?_, ?_⟩
  · intro k
    rw [wadd_assoc, pos.source, pos.left]
    congr 1
    omega
  · rw [pos.left]
    omega

/-- The bytes that a round writes are those of the segment. -/
theorem Position.byte {front virt src remaining w : Nat} (pos : Position ph front virt src remaining)
    (same : w / pageSize = virt / pageSize) :
    (if front ≤ w % pageSize ∧ w % pageSize < front + min remaining (pageSize - front) then
      file (wadd src (w % pageSize - front)) % 256 else 0) = ph.byteOf file w := by
  have reached := pos.reached
  have first := pos.first
  obtain ⟨k, atPage⟩ := pos.page
  have place : w = virt + w % pageSize := by
    have split := Nat.div_add_mod w pageSize
    rw [same, atPage, Nat.mul_div_cancel_left k (by decide), ← atPage] at split
    exact split.symm
  have inPage : w % pageSize < pageSize := Nat.mod_lt _ (by decide)
  generalize w % pageSize = x at *
  unfold ProgramHeader.byteOf
  rw [pos.left]
  by_cases copied : front ≤ x ∧ x < front + min (ph.fileSize - (virt + front - ph.virtAddr)) (pageSize - front)
  · have source : wadd src (x - front) = wadd ph.offset (w - ph.virtAddr) := by
      rw [pos.source]
      congr 1
      omega
    rw [if_pos copied, if_pos (by omega), source]
  · rw [if_neg copied, if_neg (by omega)]

/-- The pages of a segment, from one of them on. -/
theorem loadPages_fills {flags vaddrOffset : Nat} (isFlags : IsFlags flags) (user : flags.testBit 2 = true)
    (count : Nat) {first : Bool} {virt src remaining : Nat} (inv : Inv s list) (backed : Backed s top)
    (offset : pageSize ∣ s.hhdmOffset) (low : virt + count * pageSize ≤ 2 ^ 47)
    (pos : Position ph (if first then vaddrOffset else 0) virt src remaining) :
    (∃ s', loadPages file top flags vaddrOffset count first virt src remaining s = .ok s' ∧
      Fills s s' top count (fun w before =>
        if virt / pageSize ≤ w / pageSize ∧ w / pageSize < virt / pageSize + count then some (ph.byteOf file w)
        else before)) ∨
    (loadPages file top flags vaddrOffset count first virt src remaining s = .error .outOfMemory ∧
      s.totalPages < s.usedPages + 4 * count) := by
  induction count generalizing s list first virt src remaining with
  | zero =>
    refine .inl ⟨s, rfl, ⟨list, inv⟩, backed, rfl, rfl, Nat.le_add_right _ _, ?_⟩
    intro w _
    rw [if_neg (by omega)]
  | succ count ih =>
    have below : virt < 2 ^ 47 := by
      rw [Nat.add_mul, Nat.one_mul] at low
      unfold pageSize at low
      omega
    have nextVirt : wadd virt pageSize = virt + pageSize := by
      apply wadd_eq
      unfold pageSize
      omega
    have nextLow : virt + pageSize + count * pageSize ≤ 2 ^ 47 := by
      rw [Nat.add_mul, Nat.one_mul] at low
      omega
    generalize isFront : (if first = true then vaddrOffset else 0) = front at pos
    have space : wsub pageSize front = pageSize - front := wsub_eq (by decide) (Nat.le_of_lt pos.inPage)
    rcases @Backed.fill s top virt list file inv backed offset below flags isFlags user front src _
        (Nat.le_of_lt pos.inPage) (Nat.min_le_right remaining (pageSize - front)) with
      ⟨p, s₁, s₂, returned, mapped, one⟩ | ⟨failed, full⟩
    · obtain ⟨list₃, inv₃⟩ := one.inv
      have offset₃ := offset
      rw [← one.hhdm] at offset₃
      have unfolded : loadPages file top flags vaddrOffset (count + 1) first virt src remaining s =
          loadPages file top flags vaddrOffset count false (virt + pageSize)
            (wadd src (min remaining (pageSize - front))) (remaining - min remaining (pageSize - front))
            { s₂ with
              mem := fillPage s₂.mem file (wadd p s₁.hhdmOffset) front src (min remaining (pageSize - front)) } := by
        rw [loadPages_round returned mapped, isFront, space, nextVirt]
      rw [unfolded]
      have next : Position ph (if false = true then vaddrOffset else 0) (virt + pageSize)
          (wadd src (min remaining (pageSize - front))) (remaining - min remaining (pageSize - front)) := pos.next
      rcases ih inv₃ one.backed offset₃ nextLow next with ⟨s', ran, rest⟩ | ⟨failed, full⟩
      · refine .inl ⟨s', ran, rest.inv, rest.backed, rest.hhdm.trans one.hhdm, rest.total.trans one.total, ?_, ?_⟩
        · have cost := (one.trans rest).cost
          omega
        · intro w lowW
          rw [rest.reads w lowW, one.reads w lowW, Nat.add_div_right _ (by decide)]
          by_cases here : w / pageSize = virt / pageSize
          · rw [if_neg (by omega), if_pos here, pos.byte here, if_pos (by omega)]
          · by_cases later : virt / pageSize + 1 ≤ w / pageSize ∧ w / pageSize < virt / pageSize + 1 + count
            · rw [if_pos later, if_pos (by omega)]
            · rw [if_neg later, if_neg here, if_neg (by omega)]
      · have cost := one.cost
        have total := one.total
        exact .inr ⟨failed, by omega⟩
    · exact .inr ⟨loadPages_failed failed, by omega⟩

theorem pagesToMap_eq (nonempty : 0 < ph.memSize) (bound : ph.virtAddr + ph.memSize + (pageSize - 1) < 2 ^ 64) :
    ph.pagesToMap = (ph.virtAddr + ph.memSize + (pageSize - 1)) / pageSize - ph.virtAddr / pageSize := by
  unfold pageSize at *
  have ends : wadd ph.virtAddr ph.memSize = ph.virtAddr + ph.memSize := wadd_eq (by omega)
  have up := @alignUp_pow (ph.virtAddr + ph.memSize) 12 (by decide)
  have down := @alignDown_pow ph.virtAddr 12 (by decide) (by omega)
  rw [wadd_eq (show ph.virtAddr + ph.memSize + (2 ^ 12 - 1) < 2 ^ 64 from bound)] at up
  have up' : alignUp (ph.virtAddr + ph.memSize) 4096 = (ph.virtAddr + ph.memSize + (4096 - 1)) / 4096 * 4096 := up
  have down' : alignDown ph.virtAddr 4096 = ph.virtAddr / 4096 * 4096 := down
  unfold ProgramHeader.pagesToMap pageSize
  rw [ends, up', down', wsub_eq (by omega) (by omega)]
  omega

/-- The numbers of a segment in the window. -/
theorem Loadable.numbers {size : Nat} (loadable : Loadable size ph) :
    ph.firstVirtAddr = ph.virtAddr / pageSize * pageSize ∧ ph.vaddrOffset = ph.virtAddr % pageSize ∧
      ph.pagesToMap = (ph.virtAddr + ph.memSize + (pageSize - 1)) / pageSize - ph.virtAddr / pageSize := by
  have high := loadable.high
  have nonempty := loadable.nonempty
  have down : alignDown ph.virtAddr pageSize = ph.virtAddr / pageSize * pageSize :=
    @alignDown_pow ph.virtAddr 12 (by decide) (by omega)
  have first : ph.firstVirtAddr = ph.virtAddr / pageSize * pageSize := by
    unfold ProgramHeader.firstVirtAddr
    rw [loadable.alignment, if_pos (by decide)]
    exact down
  refine ⟨first, ?_, ?_⟩
  · unfold ProgramHeader.vaddrOffset
    rw [first, wsub_eq (by omega) (Nat.div_mul_le_self _ _)]
    have split := Nat.div_add_mod' ph.virtAddr pageSize
    omega
  · apply pagesToMap_eq nonempty
    unfold pageSize
    omega

theorem user_pteFlags (ph : ProgramHeader) : ph.pteFlags.testBit 2 = true := by
  unfold ProgramHeader.pteFlags
  simp only
  split
  · split
    · decide
    · decide
  · split
    · decide
    · decide

/-- A segment fills its pages. -/
theorem loadSegment_fills {size : Nat} {space : AddressSpace} (inv : Inv space.phys list)
    (backed : Backed space.phys space.topLevel) (offset : pageSize ∣ space.phys.hhdmOffset)
    (isLoad : ph.isLoad = true) (loadable : Loadable size ph) :
    (∃ s' ranges', loadSegment file space ph = .ok ⟨s', space.topLevel, ranges'⟩ ∧
      Fills space.phys s' space.topLevel ph.pagesToMap (fun w before => overlay file w [ph] before)) ∨
    (loadSegment file space ph = .error .outOfMemory ∧
      space.phys.totalPages < space.phys.usedPages + 4 * ph.pagesToMap) := by
  obtain ⟨first, vaddrOffset, pages⟩ := loadable.numbers
  have high := loadable.high
  have nonempty := loadable.nonempty
  have pos : Position ph (if true = true then ph.vaddrOffset else 0) ph.firstVirtAddr ph.offset ph.fileSize := by
    have split := Nat.div_add_mod' ph.virtAddr pageSize
    rw [if_pos rfl, first, vaddrOffset]
    refine ⟨Nat.dvd_mul_left _ _, Nat.mod_lt _ (by decide), by omega, .inr split, ?_, ?_⟩
    · intro k
      congr 1
      omega
    · omega
  have low : ph.firstVirtAddr + ph.pagesToMap * pageSize ≤ 2 ^ 47 := by
    rw [first, pages]
    unfold pageSize
    omega
  rcases @loadPages_fills space.phys space.topLevel list file ph ph.pteFlags ph.vaddrOffset (isFlags_pteFlags ph)
      (user_pteFlags ph) ph.pagesToMap true ph.firstVirtAddr ph.offset ph.fileSize inv backed offset low pos with
    ⟨s', ran, fills⟩ | ⟨failed, full⟩
  · left
    refine ⟨s', (Vma.vallocFixed space.ranges ph.reservedSize ph.firstVirtAddr false).2, ?_, fills.inv, fills.backed,
      fills.hhdm, fills.total, fills.cost, ?_⟩
    · simp only [loadSegment, isLoad, not_true_eq_false, ↓reduceIte, ran, bind, Except.bind]
    · intro w lowW
      have order : ph.virtAddr / pageSize ≤ (ph.virtAddr + ph.memSize + (pageSize - 1)) / pageSize :=
        Nat.div_le_div_right (by omega)
      rw [fills.reads w lowW, first, pages, Nat.mul_div_cancel _ (by decide), Nat.add_sub_cancel' order]
      simp only [overlay, isLoad, ProgramHeader.hasPage, Bool.true_and, decide_eq_true_eq]
  · right
    refine ⟨?_, full⟩
    simp only [loadSegment, isLoad, not_true_eq_false, ↓reduceIte, failed, bind, Except.bind]

theorem loadSegments_fills {size : Nat} (headers : List ProgramHeader) {space : AddressSpace}
    (inv : Inv space.phys list) (backed : Backed space.phys space.topLevel)
    (offset : pageSize ∣ space.phys.hhdmOffset)
    (loadable : ∀ ph ∈ headers, ph.isLoad = true → Loadable size ph) :
    (∃ s' ranges', loadSegments file headers space = .ok ⟨s', space.topLevel, ranges'⟩ ∧
      Fills space.phys s' space.topLevel (imagePages headers) (fun w before => overlay file w headers before)) ∨
    (loadSegments file headers space = .error .outOfMemory ∧
      space.phys.totalPages < space.phys.usedPages + 4 * imagePages headers) := by
  induction headers generalizing space list with
  | nil => exact .inl ⟨space.phys, space.ranges, rfl, ⟨list, inv⟩, backed, rfl, rfl, Nat.le_refl _, fun _ _ => rfl⟩
  | cons ph rest ih =>
    have later : ∀ ph ∈ rest, ph.isLoad = true → Loadable size ph := fun other member =>
      loadable other (List.mem_cons_of_mem _ member)
    by_cases isLoad : ph.isLoad = true
    · have pages : imagePages (ph :: rest) = ph.pagesToMap + imagePages rest := by
        simp only [imagePages, List.filter_cons_of_pos isLoad, List.map_cons, List.sum_cons]
      rw [pages]
      rcases @loadSegment_fills list file ph size space inv backed offset isLoad
          (loadable ph List.mem_cons_self isLoad) with
        ⟨s₁, ranges₁, ran₁, one⟩ | ⟨failed, full⟩
      · obtain ⟨list₁, inv₁⟩ := one.inv
        have offset₁ : pageSize ∣ s₁.hhdmOffset := one.hhdm.symm ▸ offset
        have unfolded : loadSegments file (ph :: rest) space =
            loadSegments file rest ⟨s₁, space.topLevel, ranges₁⟩ := by
          simp only [loadSegments, ran₁, bind, Except.bind]
        rw [unfolded]
        rcases @ih list₁ ⟨s₁, space.topLevel, ranges₁⟩ inv₁ one.backed offset₁ later with
          ⟨s₂, ranges₂, ran₂, two⟩ | ⟨failed, full⟩
        · exact .inl ⟨s₂, ranges₂, ran₂, one.trans two⟩
        · have cost := one.cost
          have total := one.total
          refine .inr ⟨failed, ?_⟩
          change s₁.totalPages < s₁.usedPages + 4 * imagePages rest at full
          omega
      · right
        refine ⟨?_, by omega⟩
        simp only [loadSegments, failed, bind, Except.bind]
    · have pages : imagePages (ph :: rest) = imagePages rest := by
        simp only [imagePages, List.filter_cons_of_neg isLoad]
      have unfolded : loadSegments file (ph :: rest) space = loadSegments file rest space := by
        simp only [loadSegments, loadSegment, if_pos isLoad, bind, Except.bind]
      have view : (fun w before => overlay file w (ph :: rest) before) =
          (fun w before => overlay file w rest before) := by
        funext w before
        simp only [overlay, isLoad, Bool.false_and, Bool.false_eq_true, ↓reduceIte]
      rw [pages, unfolded, view]
      exact ih inv backed offset later

end Segments

theorem loadSegments_append (file : File) (before rest : List ProgramHeader) (space : AddressSpace) :
    loadSegments file (before ++ rest) space = loadSegments file before space >>= loadSegments file rest := by
  induction before generalizing space with
  | nil => rfl
  | cons ph before ih =>
    simp only [List.cons_append, loadSegments, bind, Except.bind]
    cases loadSegment file space ph with
    | error e => rfl
    | ok space₁ => exact ih space₁

/-! Which segment shows at an address. -/

section Overlay

variable {file : File} {headers before rest : List ProgramHeader} {ph : ProgramHeader} {size v : Nat}

theorem overlay_append (first : Option Nat) :
    overlay file v (before ++ rest) first = overlay file v rest (overlay file v before first) := by
  induction before generalizing first with
  | nil => rfl
  | cons ph before ih => exact ih _

theorem covers_hasPage (covers : ph.Covers v) : ph.hasPage v = true := by
  obtain ⟨low, high⟩ := covers
  unfold ProgramHeader.hasPage pageSize
  rw [decide_eq_true_eq]
  omega

/-- A segment that does not hold the address is zero there. -/
theorem byteOf_outside (small : ph.fileSize ≤ ph.memSize) (outside : ¬ ph.Covers v) : ph.byteOf file v = 0 := by
  unfold ProgramHeader.Covers at outside
  unfold ProgramHeader.byteOf
  exact if_neg (by omega)

/-- Segments that do not hold the address hide what is there with zeros, or leave it. -/
theorem overlay_apart (apart : ∀ other ∈ rest, other.isLoad = true → other.fileSize ≤ other.memSize ∧ ¬ other.Covers v)
    (byte : Nat) : overlay file v rest (some byte) =
      some (if rest.any (fun other => other.isLoad && other.hasPage v) then 0 else byte) := by
  induction rest generalizing byte with
  | nil => rfl
  | cons other rest ih =>
    have later := ih (fun ph member => apart ph (List.mem_cons_of_mem _ member))
    cases hides : other.isLoad && other.hasPage v with
    | false =>
      simp only [overlay, hides, Bool.false_eq_true, ↓reduceIte, List.any_cons, Bool.false_or]
      exact later byte
    | true =>
      obtain ⟨isLoad, _⟩ := Bool.and_eq_true_iff.mp hides
      obtain ⟨small, outside⟩ := apart other List.mem_cons_self isLoad
      simp only [overlay, hides, ↓reduceIte, List.any_cons, Bool.true_or, byteOf_outside small outside]
      rw [later 0, ite_self]

/-- A segment shows at its addresses, unless a later one has the page. -/
theorem overlay_segment (isLoad : ph.isLoad = true) (covers : ph.Covers v)
    (apart : ∀ other ∈ rest, other.isLoad = true → other.fileSize ≤ other.memSize ∧ ¬ other.Covers v)
    (first : Option Nat) : overlay file v (before ++ ph :: rest) first =
      some (if rest.any (fun other => other.isLoad && other.hasPage v) then 0 else ph.byteOf file v) := by
  have shown : overlay file v (ph :: rest) (overlay file v before first) =
      overlay file v rest (some (ph.byteOf file v)) := by
    simp only [overlay, isLoad, covers_hasPage covers, Bool.and_self, ↓reduceIte]
  rw [overlay_append, shown, overlay_apart apart]

theorem apart_of_disjoint (loadable : ∀ ph ∈ headers, ph.isLoad = true → Loadable size ph)
    (disjoint : Disjoint headers) (split : headers = before ++ ph :: rest) (isLoad : ph.isLoad = true)
    (covers : ph.Covers v) :
    ∀ other ∈ rest, other.isLoad = true → other.fileSize ≤ other.memSize ∧ ¬ other.Covers v := by
  intro other member otherLoad
  subst split
  have pair := (List.pairwise_cons.mp (List.pairwise_append.mp disjoint).2.1).1 other member
  refine ⟨(loadable other ?_ otherLoad).small, pair isLoad otherLoad v covers⟩
  exact List.mem_append_right _ (List.mem_cons_of_mem _ member)

/-- Where nothing is hidden every segment shows. -/
theorem NothingHidden.shows (nothing : NothingHidden file headers)
    (loadable : ∀ ph ∈ headers, ph.isLoad = true → Loadable size ph) (disjoint : Disjoint headers)
    (member : ph ∈ headers) (isLoad : ph.isLoad = true) (covers : ph.Covers v) (first : Option Nat) :
    overlay file v headers first = some (ph.byteOf file v) := by
  obtain ⟨before, rest, split⟩ := List.append_of_mem member
  have apart := apart_of_disjoint loadable disjoint split isLoad covers
  rw [split, overlay_segment isLoad covers apart]
  split
  · rename_i hidden
    obtain ⟨other, inRest, hides⟩ := List.any_eq_true.mp hidden
    obtain ⟨otherLoad, hasPage⟩ := Bool.and_eq_true_iff.mp hides
    have later := (List.pairwise_cons.mp (List.pairwise_append.mp (split ▸ nothing)).2.1).1 other inRest
    rw [later isLoad otherLoad v covers hasPage]
  · rfl

/-- If every segment shows, nothing is hidden. -/
theorem nothingHidden_of_shows (loadable : ∀ ph ∈ headers, ph.isLoad = true → Loadable size ph)
    (disjoint : Disjoint headers) {first : Nat → Option Nat}
    (shows : ∀ ph ∈ headers, ph.isLoad = true → ∀ v, ph.Covers v →
      overlay file v headers (first v) = some (ph.byteOf file v)) (split : headers = before ++ rest) :
    NothingHidden file rest := by
  induction rest generalizing before with
  | nil => exact List.Pairwise.nil
  | cons ph rest ih =>
    refine List.pairwise_cons.mpr ⟨?_, @ih (before ++ [ph]) (by rw [split]; simp)⟩
    intro other member isLoad otherLoad v covers hasPage
    have shown := shows ph (by rw [split]; simp) isLoad v covers
    have hidden : rest.any (fun other => other.isLoad && other.hasPage v) = true :=
      List.any_eq_true.mpr ⟨other, member, by rw [otherLoad, hasPage]; rfl⟩
    rw [split, overlay_segment isLoad covers (apart_of_disjoint loadable disjoint split isLoad covers), if_pos hidden]
      at shown
    exact (Option.some.inj shown).symm

end Overlay

section Image

variable {file : File} {headers : List ProgramHeader} {size : Nat} {space : AddressSpace} {list : List Nat}

theorem emptyLowerHalf_leaf {s : Phys} {top v : Nat} (empty : EmptyLowerHalf s top)
    (inside : lowerHalf (pml4i v)) : leaf s top v = 0 := by
  unfold leaf
  cases here : descend (child s) top (pathOf v) with
  | none => rfl
  | some t => cases (empty.only_top (valid_pathOf inside) here).1

theorem EmptyLowerHalf.backed {s : Phys} {top : Nat} (empty : EmptyLowerHalf s top) : Backed s top := by
  refine ⟨empty.tree, empty.opened, ?_⟩
  intro v inside present
  rw [emptyLowerHalf_leaf empty inside, isPresent_zero] at present
  cases present

theorem Loadable.covers_low {ph : ProgramHeader} {v : Nat} (loadable : Loadable size ph) (covers : ph.Covers v) :
    v < 2 ^ 47 := by
  have high := loadable.high
  have below := covers.2
  omega

/-- The bytes of a segment are those of the file. -/
theorem Loadable.byte {ph : ProgramHeader} {i : Nat} (loadable : Loadable size ph) (bounded : size ≤ 2 ^ 64) :
    ph.byteOf file (ph.virtAddr + i) = if i < ph.fileSize then file (ph.offset + i) % 256 else 0 := by
  have data := loadable.data
  unfold ProgramHeader.byteOf
  split
  · rename_i inData
    rw [if_pos (by omega), Nat.add_sub_cancel_left, wadd_eq (by omega)]
  · rw [if_neg (by omega)]

theorem imageRead_iff (loadable : ∀ ph ∈ headers, ph.isLoad = true → Loadable size ph) (bounded : size ≤ 2 ^ 64) :
    ImageRead file headers space ↔ ∀ ph ∈ headers, ph.isLoad = true → ∀ v, ph.Covers v →
      readByte space.phys space.topLevel v = some (ph.byteOf file v) := by
  constructor
  · intro read ph member isLoad v covers
    obtain ⟨i, rfl⟩ := Nat.exists_eq_add_of_le covers.1
    have inside := covers.2
    rw [read ph member isLoad i (by omega), (loadable ph member isLoad).byte bounded]
  · intro read ph member isLoad i inside
    rw [read ph member isLoad _ ⟨Nat.le_add_right _ _, by omega⟩, (loadable ph member isLoad).byte bounded]

/-- Where nothing is hidden, loading a segment changes nothing before it. -/
theorem NothingHidden.earlierKept (nothing : NothingHidden file headers) (inv : Inv space.phys list)
    (backed : Backed space.phys space.topLevel) (offset : pageSize ∣ space.phys.hhdmOffset)
    (loadable : ∀ ph ∈ headers, ph.isLoad = true → Loadable size ph) (disjoint : Disjoint headers) :
    EarlierKept file headers space := by
  intro before ph rest space₁ space₂ split ran₁ ran₂ earlier member isLoad i inside
  have covers : earlier.Covers (earlier.virtAddr + i) := ⟨Nat.le_add_right _ _, by omega⟩
  have prefixed : headers = before ++ [ph] ++ rest := by
    rw [split]
    simp
  have beforeLoadable : ∀ other ∈ before ++ [ph], other.isLoad = true → Loadable size other :=
    fun other inBefore => loadable other (prefixed ▸ List.mem_append_left _ inBefore)
  have beforeDisjoint : Disjoint (before ++ [ph]) := (List.pairwise_append.mp (prefixed ▸ disjoint)).1
  have beforeNothing : NothingHidden file (before ++ [ph]) := (List.pairwise_append.mp (prefixed ▸ nothing)).1
  have shown₁ := NothingHidden.shows (List.pairwise_append.mp beforeNothing).1
    (fun other inBefore => beforeLoadable other (List.mem_append_left _ inBefore))
    (List.pairwise_append.mp beforeDisjoint).1 member isLoad covers
  have shown₂ := beforeNothing.shows beforeLoadable beforeDisjoint (List.mem_append_left _ member) isLoad covers
  have low := (beforeLoadable earlier (List.mem_append_left _ member) isLoad).covers_low covers
  rcases @loadSegments_fills list file size before space inv backed offset
      (fun other inBefore => beforeLoadable other (List.mem_append_left _ inBefore)) with
    ⟨s₁, ranges₁, result₁, one⟩ | ⟨failed, _⟩
  · cases Except.ok.inj (result₁.symm.trans ran₁)
    have both : loadSegments file (before ++ [ph]) space = .ok space₂ := by
      rw [loadSegments_append, ran₁]
      simp only [loadSegments, ran₂, bind, Except.bind]
    rcases @loadSegments_fills list file size (before ++ [ph]) space inv backed offset beforeLoadable with
      ⟨s₂, ranges₂, result₂, two⟩ | ⟨failed, _⟩
    · cases Except.ok.inj (result₂.symm.trans both)
      change readByte s₂ space.topLevel _ = readByte s₁ space.topLevel _
      rw [two.reads _ low, one.reads _ low, shown₁, shown₂]
    · cases failed.symm.trans both
  · cases failed.symm.trans ran₁

end Image

/-- load_elf on a file with disjoint segments in the window of a new pagemap returns, unless
the memory is exhausted. The whole image is then there, and no segment changed an earlier
one, exactly when the shared pages hide nothing but zeros. -/
theorem load_image {s : Phys} {list : List Nat} {kernelTop size : Nat} {space : AddressSpace} {file : File}
    (inv : Inv s list) (offset : pageSize ∣ s.hhdmOffset) (made : newPagemap s kernelTop = .ok space)
    (accepted : verifyElf64 file = true) (bounded : size ≤ 2 ^ 64)
    (loadable : ∀ ph ∈ programHeaders file, ph.isLoad = true → Loadable size ph)
    (disjoint : Disjoint (programHeaders file)) :
    (∃ info space', loadElf file space = .ok (info, space') ∧
      ((ImageRead file (programHeaders file) space' ∧ EarlierKept file (programHeaders file) space) ↔
        NothingHidden file (programHeaders file))) ∨
    (loadElf file space = .error .outOfMemory ∧
      space.phys.totalPages < space.phys.usedPages + 4 * imagePages (programHeaders file)) := by
  obtain ⟨⟨list', inv'⟩, hhdm, empty, _⟩ := newPagemap_spec inv made
  have backed := EmptyLowerHalf.backed empty
  have offset' : pageSize ∣ space.phys.hhdmOffset := hhdm.symm ▸ offset
  rcases @loadSegments_fills list' file size (programHeaders file) space inv' backed offset' loadable with
    ⟨s', ranges', ran, fills⟩ | ⟨failed, full⟩
  · left
    obtain ⟨info, loaded⟩ := loadElf_loaded accepted ran
    refine ⟨info, _, loaded, ?_⟩
    rw [imageRead_iff loadable bounded]
    constructor
    · rintro ⟨read, _⟩
      have shows : ∀ ph ∈ programHeaders file, ph.isLoad = true → ∀ v, ph.Covers v → overlay file v
          (programHeaders file) (readByte space.phys space.topLevel v) = some (ph.byteOf file v) := by
        intro ph member isLoad v covers
        rw [← fills.reads v ((loadable ph member isLoad).covers_low covers)]
        exact read ph member isLoad v covers
      exact nothingHidden_of_shows loadable disjoint shows (List.nil_append _).symm
    · intro nothing
      refine ⟨?_, nothing.earlierKept inv' backed offset' loadable disjoint⟩
      intro ph member isLoad v covers
      have shown := fills.reads v ((loadable ph member isLoad).covers_low covers)
      rw [shown]
      exact nothing.shows loadable disjoint member isLoad covers _
  · exact .inr ⟨loadElf_failed accepted failed, full⟩

/-! Files with two segments. -/

def littleEndian (n : Nat) : List Nat := (List.range 8).map (fun j => n / 256 ^ j % 256)

/- The program header of an executable segment. -/
def loadHeader (offset virtAddr fileSize memSize : Nat) : List Nat :=
  [1, 0, 0, 0, 5, 0, 0, 0] ++ littleEndian offset ++ littleEndian virtAddr ++ littleEndian 0 ++
    littleEndian fileSize ++ littleEndian memSize ++ littleEndian 0x1000

/- The first segment is the first 16 bytes of the file, the second one has no data. -/
def twoSegments (offset virtAddr : Nat) : File := fun a =>
  ((headerBytes 2).set 56 2 ++ loadHeader 0 0x400000 16 16 ++ loadHeader offset virtAddr 0 16).getD a 0

def firstSegment : ProgramHeader := ⟨1, 5, 0, 0x400000, 16, 16, 0x1000⟩

def emptySegment (offset virtAddr : Nat) : ProgramHeader := ⟨1, 5, offset, virtAddr, 0, 16, 0x1000⟩

theorem firstSegment_loadable : Loadable 4096 firstSegment where
  nonempty := by decide
  low := by decide
  high := by decide
  alignment := rfl
  congruent := by decide
  small := by decide
  data := by decide

theorem twoSegments_loadable {offset virtAddr size : Nat} (low : 0x1000 ≤ virtAddr)
    (high : virtAddr + 16 ≤ 400000000000) (congruent : virtAddr % 4096 = offset % 4096) (data : offset ≤ size)
    (large : 4096 ≤ size) :
    ∀ ph ∈ [firstSegment, emptySegment offset virtAddr], ph.isLoad = true → Loadable size ph := by
  intro ph member _
  rcases List.mem_cons.mp member with rfl | second
  · exact { firstSegment_loadable with data := Nat.le_trans firstSegment_loadable.data large }
  · cases List.mem_singleton.mp second
    exact ⟨Nat.succ_pos 15, low, high, rfl, congruent, Nat.zero_le 16, data⟩

theorem twoSegments_disjoint {offset virtAddr : Nat} (apart : 0x400010 ≤ virtAddr) :
    Disjoint [firstSegment, emptySegment offset virtAddr] := by
  refine List.pairwise_cons.mpr ⟨?_, List.pairwise_singleton _ _⟩
  intro other member _ _ v first second
  cases List.mem_singleton.mp member
  have below : v < 0x400000 + 16 := first.2
  have above : virtAddr ≤ v := second.1
  omega

/-- Two segments in two pages: the whole image is loaded. -/
theorem load_image_two_pages : ∃ space info space', loadElf (twoSegments 0x1000 0x401000) space = .ok (info, space') ∧
    ImageRead (twoSegments 0x1000 0x401000) (programHeaders (twoSegments 0x1000 0x401000)) space' := by
  obtain ⟨s, list, space, inv, offset, made, _, _, room⟩ := smallProcess
  have headers : programHeaders (twoSegments 0x1000 0x401000) =
      [firstSegment, emptySegment 0x1000 0x401000] := by decide +kernel
  have accepted : verifyElf64 (twoSegments 0x1000 0x401000) = true := by decide +kernel
  have pages : imagePages [firstSegment, emptySegment 0x1000 0x401000] = 2 := by decide +kernel
  have nothing : NothingHidden (twoSegments 0x1000 0x401000)
      [firstSegment, emptySegment 0x1000 0x401000] := by
    refine List.pairwise_cons.mpr ⟨?_, List.pairwise_singleton _ _⟩
    intro other member _ _ v covers hasPage
    cases List.mem_singleton.mp member
    have below : v < 0x400000 + 16 := covers.2
    unfold ProgramHeader.hasPage pageSize emptySegment at hasPage
    simp only [decide_eq_true_eq] at hasPage
    omega
  have loaded := load_image inv offset made accepted (show 4096 ≤ 2 ^ 64 by decide)
    (headers ▸ twoSegments_loadable (by decide) (by decide) (by decide) (by decide) (by decide))
    (headers ▸ twoSegments_disjoint (by decide))
  rw [headers] at loaded ⊢
  rcases loaded with ⟨info, space', ran, image⟩ | ⟨_, full⟩
  · exact ⟨space, info, space', ran, (image.mpr nothing).1⟩
  · rw [pages] at full
    omega

/-- Two segments in one page: the first byte of the first one reads zero. -/
theorem load_shared_page : ∃ s list space info space', Inv s list ∧ pageSize ∣ s.hhdmOffset ∧
    newPagemap s 0xFFFF800000101000 = .ok space ∧ verifyElf64 (twoSegments 0x800 0x400800) = true ∧
    (∀ ph ∈ programHeaders (twoSegments 0x800 0x400800), ph.isLoad = true → Loadable 4096 ph) ∧
    Disjoint (programHeaders (twoSegments 0x800 0x400800)) ∧
    loadElf (twoSegments 0x800 0x400800) space = .ok (info, space') ∧
    ¬ ImageRead (twoSegments 0x800 0x400800) (programHeaders (twoSegments 0x800 0x400800)) space' := by
  obtain ⟨s, list, space, inv, offset, made, agrees, _, room⟩ := smallProcess
  obtain ⟨⟨list', inv'⟩, _, empty, _⟩ := newPagemap_spec inv made
  have headers : programHeaders (twoSegments 0x800 0x400800) =
      [firstSegment, emptySegment 0x800 0x400800] := by decide +kernel
  have accepted : verifyElf64 (twoSegments 0x800 0x400800) = true := by decide +kernel
  have pages : imagePages [firstSegment, emptySegment 0x800 0x400800] = 2 := by decide +kernel
  have loadable : ∀ ph ∈ [firstSegment, emptySegment 0x800 0x400800], ph.isLoad = true →
      Loadable 4096 ph := twoSegments_loadable (by decide) (by decide) (by decide) (by decide) (by decide)
  rcases @loadSegments_fills list' (twoSegments 0x800 0x400800) 4096 _ space inv' (EmptyLowerHalf.backed empty)
      agrees.offset loadable with ⟨s', ranges', ran, fills⟩ | ⟨_, full⟩
  · obtain ⟨info, loaded⟩ := loadElf_loaded accepted (headers ▸ ran)
    refine ⟨s, list, space, info, ⟨s', space.topLevel, ranges'⟩, inv, offset, made, accepted, headers ▸ loadable,
      headers ▸ twoSegments_disjoint (by decide), loaded, ?_⟩
    intro read
    have first := read firstSegment (headers ▸ List.mem_cons_self) rfl 0 (by decide)
    have shown := fills.reads 0x400000 (by decide)
    have inSecond : (emptySegment 0x800 0x400800).hasPage 0x400000 = true := by decide
    simp only [overlay, inSecond, show (emptySegment 0x800 0x400800).isLoad = true from rfl, Bool.and_self,
      ↓reduceIte] at shown
    cases shown.symm.trans first
  · rw [pages] at full
    omega

end EvalynOS.Process
