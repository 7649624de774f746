import EvalynOS.Process.Alignment

/-! What the loop over the pages of a segment leaves in its frames, and what it reads of the
file. -/
namespace EvalynOS.Process
open Lib Lib.Word Pmm Vmm

/- A round of the loop: the new page, what is written to it, and the bytes of the file that
memcpy reads. -/
structure CopyRound where
  frame : Nat
  writes : List FrameWrite
  reads : List Nat

/- The loop over the pages of a segment with its rounds. -/
def copyRounds (file : File) (topLevel flags vaddrOffset : Nat) :
    Nat → Bool → Nat → Nat → Nat → Phys → List CopyRound × Except Panic Phys
  | 0, _, _, _, _, s => ([], .ok s)
  | count + 1, first, virt, src, fileRemaining, s =>
    match allocatePage s with
    | .error e => ([], .error e)
    | .ok (ppage, s) =>
      let vpage := wadd ppage s.hhdmOffset
      match vmmMapPage s topLevel virt ppage flags with
      | .error e => ([], .error e)
      | .ok s =>
        let offset := if first then vaddrOffset else 0
        let space := wsub pageSize offset
        let toCopy := min fileRemaining space
        let writes := fillWrites file vpage offset src toCopy
        let rest := copyRounds file topLevel flags vaddrOffset count false (wadd virt pageSize) (wadd src toCopy)
          (fileRemaining - toCopy) { s with mem := writes.foldl FrameWrite.run s.mem }
        (⟨ppage, writes, (List.range toCopy).map (wadd src)⟩ :: rest.1, rest.2)

/- The bytes of a page. -/
def frameBytes (s : Phys) (p : Nat) : List Nat :=
  (List.range pageSize).map (fun x => s.mem.byteAt (p + s.hhdmOffset + x))

/- Zeros, bytes of the file, and zeros again, in `size` bytes. -/
def paddedCopy (file : File) (size front src toCopy : Nat) : List Nat :=
  List.replicate front 0 ++ (List.range toCopy).map (fun k => file (wadd src k) % 256) ++
    List.replicate (size - front - toCopy) 0

/-- A page in use that is no table of the pagemap. -/
structure DataFrame (s : Phys) (top : Nat) (region : Nat → Prop) (p : Nat) : Prop where
  used : PageIs s p .used
  notTable : ∀ path, Valid region path → descend (child s) top path ≠ some (p + s.hhdmOffset)

section Lists

variable {file : File} {size front src toCopy : Nat}

theorem wadd_wadd (a b c : Nat) : wadd (wadd a b) c = wadd a (b + c) := by
  unfold wadd
  rw [Nat.mod_add_mod, Nat.add_assoc]

theorem range_shifted (n m : Nat) (f : Nat → Nat) :
    (List.range (n + m)).map f = (List.range n).map f ++ (List.range m).map (fun k => f (n + k)) := by
  rw [List.range_add, List.map_append, List.map_map]
  rfl

/-- The bytes of a page, by their place. -/
theorem paddedCopy_eq (fits : front + toCopy ≤ size) :
    (List.range size).map (fun x => if front ≤ x ∧ x < front + toCopy then file (wadd src (x - front)) % 256 else 0) =
      paddedCopy file size front src toCopy := by
  have split : size = front + toCopy + (size - front - toCopy) := by omega
  unfold paddedCopy
  conv_lhs => rw [split]
  rw [range_shifted, range_shifted]
  congr 1
  · congr 1
    · rw [List.eq_replicate_iff]
      refine ⟨by rw [List.length_map, List.length_range], ?_⟩
      intro byte member
      obtain ⟨x, before, rfl⟩ := List.mem_map.mp member
      have below := List.mem_range.mp before
      exact if_neg (by omega)
    · apply List.map_congr_left
      intro k member
      have below := List.mem_range.mp member
      rw [if_pos (by omega), Nat.add_sub_cancel_left]
  · rw [List.eq_replicate_iff]
    refine ⟨by rw [List.length_map, List.length_range], ?_⟩
    intro byte member
    obtain ⟨x, before, rfl⟩ := List.mem_map.mp member
    exact if_neg (by omega)

/-- A page, and the pages behind it. -/
theorem paddedCopy_append {remaining count : Nat} (inPage : front ≤ pageSize) :
    paddedCopy file pageSize front src (min remaining (pageSize - front)) ++
      paddedCopy file (pageSize * count) 0 (wadd src (min remaining (pageSize - front)))
        (min (remaining - min remaining (pageSize - front)) (pageSize * count)) =
    paddedCopy file (pageSize * (count + 1)) front src (min remaining (pageSize * (count + 1) - front)) := by
  have whole : pageSize * (count + 1) = pageSize * count + pageSize := Nat.mul_succ _ _
  unfold paddedCopy
  simp only [wadd_wadd]
  rcases Nat.le_total (pageSize - front) remaining with more | last
  · -- the page is full
    have total : min remaining (pageSize * (count + 1) - front) =
        (pageSize - front) + min (remaining - (pageSize - front)) (pageSize * count) := by omega
    have full : pageSize - front - (pageSize - front) = 0 := Nat.sub_self _
    have rest : pageSize * (count + 1) - front -
        (pageSize - front + min (remaining - (pageSize - front)) (pageSize * count)) =
        pageSize * count - 0 - min (remaining - (pageSize - front)) (pageSize * count) := by omega
    rw [Nat.min_eq_right more, total, range_shifted, full, rest, List.replicate_zero, List.append_nil,
      List.nil_append]
    simp only [List.append_assoc]
  · -- the file ends in it
    have total : min remaining (pageSize * (count + 1) - front) = remaining := by omega
    have none : min (remaining - remaining) (pageSize * count) = 0 := by omega
    have rest : pageSize * (count + 1) - front - remaining =
        (pageSize - front - remaining) + (pageSize * count - 0 - 0) := by omega
    rw [Nat.min_eq_left last, total, none, rest, List.replicate_add, List.range_zero, List.map_nil, List.append_nil,
      List.replicate_zero, List.nil_append]
    simp only [List.append_assoc]

theorem reads_append {remaining count : Nat} (inPage : front ≤ pageSize) :
    (List.range (min remaining (pageSize - front))).map (wadd src) ++
      (List.range (min (remaining - min remaining (pageSize - front)) (pageSize * count))).map
        (wadd (wadd src (min remaining (pageSize - front)))) =
    (List.range (min remaining (pageSize * (count + 1) - front))).map (wadd src) := by
  have whole : pageSize * (count + 1) = pageSize * count + pageSize := Nat.mul_succ _ _
  have total : min remaining (pageSize * (count + 1) - front) = min remaining (pageSize - front) +
      min (remaining - min remaining (pageSize - front)) (pageSize * count) := by omega
  rw [total, range_shifted]
  congr 1
  apply List.map_congr_left
  intro k _
  exact wadd_wadd _ _ _

end Lists

section Rounds

variable {s s₁ s₂ : Phys} {file : File} {top flags vaddrOffset count virt src remaining p : Nat} {first : Bool}

/-- The loop with its rounds is the loop. -/
theorem copyRounds_result : (copyRounds file top flags vaddrOffset count first virt src remaining s).2 =
    loadPages file top flags vaddrOffset count first virt src remaining s := by
  induction count generalizing first virt src remaining s with
  | zero => rfl
  | succ count ih =>
    simp only [copyRounds, loadPages, bind, Except.bind]
    cases allocatePage s with
    | error e => rfl
    | ok pair =>
      simp only
      cases vmmMapPage pair.2 top virt pair.1 flags with
      | error e => rfl
      | ok s₂ =>
        simp only [ih, ← fillPage_eq]

theorem copyRounds_round (returned : allocatePage s = .ok (p, s₁)) (mapped : vmmMapPage s₁ top virt p flags = .ok s₂)
    {offset toCopy : Nat} (isOffset : (if first = true then vaddrOffset else 0) = offset)
    (isCopy : min remaining (wsub pageSize offset) = toCopy) :
    (copyRounds file top flags vaddrOffset (count + 1) first virt src remaining s).1 =
      ⟨p, fillWrites file (wadd p s₁.hhdmOffset) offset src toCopy, (List.range toCopy).map (wadd src)⟩ ::
        (copyRounds file top flags vaddrOffset count false (wadd virt pageSize) (wadd src toCopy)
          (remaining - toCopy)
          { s₂ with mem := fillPage s₂.mem file (wadd p s₁.hhdmOffset) offset src toCopy }).1 := by
  simp only [copyRounds, returned, mapped, isOffset, isCopy, ← fillPage_eq]

/-- One round: a page that was not in use is filled and mapped at `v`, and nothing else that is
no table changes. -/
structure RoundDone (s s' : Phys) (top : Nat) (region : Nat → Prop) (v flags p : Nat) (bytes : List Nat) : Prop where
  inv : ∃ list, Inv s' list
  tree : Tree s' top region
  opens : Open s top region → Open s' top region
  hhdm : s'.hhdmOffset = s.hhdmOffset
  entry : leaf s' top v = p ||| (ptePresent ||| flags)
  others : ∀ w, region (pml4i w) → pageBits w ≠ pageBits v → leaf s' top w = leaf s top w
  frame : DataFrame s' top region p
  unused : ¬ PageIs s p .used
  bytes : frameBytes s' p = bytes
  used : ∀ q, PageIs s q .used → PageIs s' q .used
  kept : ∀ q, DataFrame s top region q → DataFrame s' top region q ∧ ∀ a, InFrame s q a → s'.mem a = s.mem a
  total : s'.totalPages = s.totalPages
  cost : s'.usedPages ≤ s.usedPages + 4

variable {region : Nat → Prop} {list : List Nat} {s' : Phys}

theorem NewPage.filled {v : Nat} (inv₂ : ∃ list, Inv s₂ list) (new : NewPage s s₂ top region v flags p)
    (inside : region (pml4i v)) {mem : Memory}
    (own : ∀ a, ¬ InFrame s₂ p a → mem a = s₂.mem a) :
    RoundDone s { s₂ with mem := mem } top region v flags p (frameBytes { s₂ with mem := mem } p) := by
  obtain ⟨list₂, inv₂⟩ := inv₂
  obtain ⟨tree, lookup, opens, leaves⟩ := @Tree.frame s₂ { s₂ with mem := mem } top region new.tree rfl
    (fun _ used => used) (by
      intro path q valid here used a inQ
      apply own
      intro inP
      have noTable := new.notTable path valid
      rw [← new.kept.hhdm] at noTable
      exact noTable (frame_apart inv₂.layout used new.used inQ inP ▸ here))
  refine ⟨⟨list₂, inv₂.write (fun a outside => own a (outside p new.used))⟩, tree,
    fun opened => opens (new.opens opened), new.kept.hhdm, ?_, ?_, ⟨new.used, ?_⟩, new.unused, rfl, new.kept.used, ?_,
    new.kept.total, ?_⟩
  · rw [leaves v inside, new.entry]
  · intro w insideW different
    rw [leaves w insideW, new.others w insideW different]
  · intro path valid here
    rw [lookup path valid] at here
    change descend (child s₂) top path = some (p + s₂.hhdmOffset) at here
    rw [new.kept.hhdm] at here
    exact new.notTable path valid here
  · intro q data
    have usedQ := new.kept.used q data.used
    have apart : ∀ a, InFrame s q a → ¬ InFrame s₂ p a := by
      intro a inQ inP
      have inQ' : InFrame s₂ q a := by
        unfold InFrame
        rw [new.kept.hhdm]
        exact inQ
      have equal := frame_apart inv₂.layout usedQ new.used inQ' inP
      exact new.unused (equal ▸ data.used)
    refine ⟨⟨usedQ, ?_⟩, ?_⟩
    · intro path valid here
      rw [lookup path valid] at here
      change descend (child s₂) top path = some (q + s₂.hhdmOffset) at here
      rw [new.kept.hhdm] at here
      rcases new.kept.tables path _ valid here with old | ⟨r, unused, same⟩
      · exact data.notTable path valid old
      · have equal : q = r := by omega
        exact unused (equal ▸ data.used)
    · intro a inQ
      have before := new.kept.mem q data.used data.notTable a inQ
      rw [← before]
      exact own a (apart a inQ)
  · have few := card_missingTables_le s top [v]
    have cost := new.made.cost
    simp only [List.length_cons, List.length_nil] at few
    change s₂.usedPages ≤ s.usedPages + 4
    omega

theorem RoundDone.same_bytes {v : Nat} {bytes : List Nat} (layout : Layout s.hhdmOffset s.tables)
    (aligned : pageSize ∣ s.hhdmOffset) (done : RoundDone s s' top region v flags p bytes) {q : Nat}
    (data : DataFrame s top region q) : frameBytes s' q = frameBytes s q := by
  unfold frameBytes
  refine List.map_congr_left (fun x member => ?_)
  have inFrame := byte_inFrame (Dvd.dvd.trans (by decide) (Nat.dvd_add (layout.page_bounds data.used).1 aligned))
    (List.mem_range.mp member)
  rw [done.hhdm]
  exact Memory.byteAt_congr ((done.kept q data).2 _ inFrame)

/-- One round of the loop. -/
theorem round_outcome (inv : Inv s list) (tree : Tree s top region) (inside : region (pml4i virt))
    (aligned : pageSize ∣ s.hhdmOffset) {front : Nat} (isFront : (if first = true then vaddrOffset else 0) = front)
    (inPage : front ≤ pageSize) :
    (∃ round s₁, RoundDone s s₁ top region virt flags round.frame
        (paddedCopy file pageSize front src (min remaining (pageSize - front))) ∧
      round.reads = (List.range (min remaining (pageSize - front))).map (wadd src) ∧
      (∀ write ∈ round.writes, round.frame + s.hhdmOffset ≤ write.addr ∧
        write.addr + write.length ≤ round.frame + s.hhdmOffset + pageSize) ∧
      loadPages file top flags vaddrOffset (count + 1) first virt src remaining s =
        loadPages file top flags vaddrOffset count false (wadd virt pageSize)
          (wadd src (min remaining (pageSize - front))) (remaining - min remaining (pageSize - front)) s₁ ∧
      (copyRounds file top flags vaddrOffset (count + 1) first virt src remaining s).1 =
        round :: (copyRounds file top flags vaddrOffset count false (wadd virt pageSize)
          (wadd src (min remaining (pageSize - front))) (remaining - min remaining (pageSize - front)) s₁).1) ∨
    (loadPages file top flags vaddrOffset (count + 1) first virt src remaining s = .error .outOfMemory ∧
      s.totalPages < s.usedPages + 4) := by
  rcases @newPage_outcome s top flags region list inv tree virt inside with
    ⟨p, s₁, s₂, list₂, returned, mapped, inv₂, new⟩ | ⟨failed, full⟩
  · left
    have space : wsub pageSize front = pageSize - front := wsub_eq (by decide) inPage
    have fits : min remaining (pageSize - front) ≤ pageSize - front := Nat.min_le_right _ _
    obtain ⟨address, small, own⟩ := @newPage_own s top virt list file region inv aligned flags p s₁ s₂ returned
      list₂ inv₂ new front src _ inPage fits
    have hhdm := new.kept.hhdm
    have isCopy : min remaining (wsub pageSize front) = min remaining (pageSize - front) := by rw [space]
    have result := @loadPages_round top file s s₁ s₂ flags vaddrOffset count virt src remaining p first returned mapped
    rw [isFront, space] at result
    have done := NewPage.filled ⟨list₂, inv₂⟩ new inside own
    have bytes : ∀ x < pageSize,
        (fillPage s₂.mem file (wadd p s₁.hhdmOffset) front src (min remaining (pageSize - front))).byteAt
          (p + s₂.hhdmOffset + x) =
        if front ≤ x ∧ x < front + min remaining (pageSize - front) then file (wadd src (x - front)) % 256 else 0 := by
      intro x below
      rw [address]
      exact fillPage_byte small inPage fits below
    rw [frameBytes, List.map_congr_left (fun x member => bytes x (List.mem_range.mp member)),
      paddedCopy_eq (by omega)] at done
    refine ⟨⟨p, _, _⟩, _, done, rfl, ?_, result, copyRounds_round returned mapped isFront isCopy⟩
    rw [address, hhdm]
    rw [hhdm] at small
    exact fillWrites_inside small inPage fits
  · have few := card_missingTables_le s top [virt]
    simp only [List.length_cons, List.length_nil] at few
    exact .inr ⟨loadPages_failed failed, by omega⟩

/-- What the loop leaves: frames of its own, that hold `bytes` and are mapped one after the other
unless a later round comes to the same page. -/
structure LoopDone (s s' : Phys) (top : Nat) (region : Nat → Prop) (flags virt : Nat) (rounds : List CopyRound)
    (bytes reads : List Nat) : Prop where
  inv : ∃ list, Inv s' list
  opens : Open s top region → Open s' top region
  hhdm : s'.hhdmOffset = s.hhdmOffset
  bytes : rounds.flatMap (fun round => frameBytes s' round.frame) = bytes
  reads : rounds.flatMap CopyRound.reads = reads
  inside : ∀ round ∈ rounds, ∀ write ∈ round.writes, round.frame + s.hhdmOffset ≤ write.addr ∧
    write.addr + write.length ≤ round.frame + s.hhdmOffset + pageSize
  frames : ∀ round ∈ rounds, PageIs s' round.frame .used ∧ ¬ PageIs s round.frame .used
  nodup : (rounds.map CopyRound.frame).Nodup
  entries : ∀ (i : Nat) (round : CopyRound), rounds[i]? = some round →
    (∀ j, i < j → j < rounds.length → pageBits (wadd virt (pageSize * i)) ≠ pageBits (wadd virt (pageSize * j))) →
    leaf s' top (wadd virt (pageSize * i)) = round.frame ||| (ptePresent ||| flags)
  others : ∀ w, region (pml4i w) → (∀ j < rounds.length, pageBits w ≠ pageBits (wadd virt (pageSize * j))) →
    leaf s' top w = leaf s top w
  used : ∀ q, PageIs s q .used → PageIs s' q .used
  kept : ∀ q, DataFrame s top region q → frameBytes s' q = frameBytes s q

theorem LoopDone.none (inv : Inv s list) (virt : Nat) : LoopDone s s top region flags virt [] [] [] where
  inv := ⟨list, inv⟩
  opens := id
  hhdm := rfl
  bytes := rfl
  reads := rfl
  inside := fun _ member => (List.not_mem_nil member).elim
  frames := fun _ member => (List.not_mem_nil member).elim
  nodup := List.nodup_nil
  entries := fun _ _ here => by cases here
  others := fun _ _ _ => rfl
  used := fun _ used => used
  kept := fun _ _ => rfl

/-- A round before the others. -/
theorem LoopDone.cons {rounds : List CopyRound} {round : CopyRound} {bytes reads rest restReads : List Nat}
    (word : virt < 2 ^ 64) (inside : region (pml4i virt)) (layout : Layout s.hhdmOffset s.tables)
    (aligned : pageSize ∣ s.hhdmOffset) (done : RoundDone s s₁ top region virt flags round.frame bytes)
    (isReads : round.reads = reads)
    (writes : ∀ write ∈ round.writes, round.frame + s.hhdmOffset ≤ write.addr ∧
      write.addr + write.length ≤ round.frame + s.hhdmOffset + pageSize)
    (later : LoopDone s₁ s' top region flags (wadd virt pageSize) rounds rest restReads) :
    LoopDone s s' top region flags virt (round :: rounds) (bytes ++ rest) (reads ++ restReads) := by
  have start : wadd virt (pageSize * 0) = virt := wadd_eq (by omega)
  have next : ∀ j, wadd (wadd virt pageSize) (pageSize * j) = wadd virt (pageSize * (j + 1)) := by
    intro j
    rw [wadd_wadd, Nat.mul_succ, Nat.add_comm]
  refine ⟨later.inv, later.opens ∘ done.opens, later.hhdm.trans done.hhdm, ?_, ?_, ?_, ?_, ?_, ?_, ?_, ?_, ?_⟩
  · rw [List.flatMap_cons, later.kept _ done.frame, done.bytes, later.bytes]
  · rw [List.flatMap_cons, isReads, later.reads]
  · intro other member
    rcases List.mem_cons.mp member with rfl | behind
    · exact writes
    · exact done.hhdm ▸ later.inside other behind
  · intro other member
    rcases List.mem_cons.mp member with rfl | behind
    · exact ⟨later.used _ done.frame.used, done.unused⟩
    · obtain ⟨used, unused⟩ := later.frames other behind
      exact ⟨used, mt (done.used _) unused⟩
  · rw [List.map_cons, List.nodup_cons]
    refine ⟨?_, later.nodup⟩
    intro member
    obtain ⟨other, behind, same⟩ := List.mem_map.mp member
    exact (later.frames other behind).2 (same ▸ done.frame.used)
  · intro i other here distinct
    cases i with
    | zero =>
      cases Option.some.inj here
      rw [start]
      refine (later.others virt inside ?_).trans done.entry
      intro j below
      have apart := distinct (j + 1) (Nat.succ_pos j) (Nat.succ_lt_succ below)
      rwa [start, ← next] at apart
    | succ i =>
      rw [← next]
      apply later.entries i other here
      intro j behind below
      rw [next, next]
      exact distinct (j + 1) (Nat.succ_lt_succ behind) (Nat.succ_lt_succ below)
  · intro w insideW distinct
    rw [later.others w insideW ?_]
    · have first := distinct 0 (Nat.succ_pos _)
      rw [start] at first
      exact done.others w insideW first
    · intro j below
      rw [next]
      exact distinct (j + 1) (Nat.succ_lt_succ below)
  · exact fun q used => later.used q (done.used q used)
  · intro q data
    exact (later.kept q (done.kept q data).1).trans (done.same_bytes layout aligned data)

theorem loop_outcome (inv : Inv s list) (tree : Tree s top region) (word : virt < 2 ^ 64)
    (inside : ∀ i < count, region (pml4i (wadd virt (pageSize * i)))) (aligned : pageSize ∣ s.hhdmOffset)
    {front : Nat} (isFront : (if first = true then vaddrOffset else 0) = front) (inPage : front ≤ pageSize)
    (nothing : count = 0 → front = 0) :
    (∃ s', loadPages file top flags vaddrOffset count first virt src remaining s = .ok s' ∧
      LoopDone s s' top region flags virt
        (copyRounds file top flags vaddrOffset count first virt src remaining s).1
        (paddedCopy file (pageSize * count) front src (min remaining (pageSize * count - front)))
        ((List.range (min remaining (pageSize * count - front))).map (wadd src)) ∧
      (copyRounds file top flags vaddrOffset count first virt src remaining s).1.length = count) ∨
    (loadPages file top flags vaddrOffset count first virt src remaining s = .error .outOfMemory ∧
      s.totalPages < s.usedPages + 4 * count) := by
  induction count generalizing first virt src remaining s list front with
  | zero =>
    left
    rw [nothing rfl, Nat.mul_zero, Nat.sub_self, Nat.min_zero]
    exact ⟨s, rfl, LoopDone.none inv virt, rfl⟩
  | succ count ih =>
    have start : wadd virt (pageSize * 0) = virt := wadd_eq (by omega)
    have here := inside 0 (Nat.succ_pos count)
    rw [start] at here
    rcases @round_outcome s file top flags vaddrOffset count virt src remaining first region list inv tree here aligned
        front isFront inPage with ⟨round, s₁, done, isReads, writes, ran, rounds⟩ | ⟨failed, full⟩
    · obtain ⟨list₁, inv₁⟩ := done.inv
      have insideRest : ∀ i < count, region (pml4i (wadd (wadd virt pageSize) (pageSize * i))) := by
        intro i below
        rw [wadd_wadd, Nat.add_comm, ← Nat.mul_succ]
        exact inside (i + 1) (Nat.succ_lt_succ below)
      rcases @ih s₁ (wadd virt pageSize) (wadd src (min remaining (pageSize - front)))
          (remaining - min remaining (pageSize - front)) false list₁ inv₁ done.tree (wadd_lt _ _) insideRest
          (done.hhdm.symm ▸ aligned) 0 (if_neg Bool.false_ne_true) (Nat.zero_le _) (fun _ => rfl) with
        ⟨s', rest, later, length⟩ | ⟨failed, full⟩
      · left
        rw [rounds, ← paddedCopy_append inPage, ← reads_append inPage]
        rw [Nat.sub_zero] at later
        exact ⟨s', ran.trans rest, LoopDone.cons word here inv.layout aligned done isReads writes later,
          congrArg (· + 1) length⟩
      · right
        have total := done.total
        have cost := done.cost
        exact ⟨ran.trans failed, by omega⟩
    · exact .inr ⟨failed, by omega⟩

end Rounds

section Pages

variable {v w : Nat}

/-- The pages of a run that is no longer than the address space are different ones. -/
theorem pageBits_run {virt i j n : Nat} (start : pageSize ∣ virt) (word : virt < 2 ^ 64) (few : n ≤ 2 ^ 36)
    (before : i < j) (below : j < n) : pageBits (wadd virt (pageSize * i)) ≠ pageBits (wadd virt (pageSize * j)) := by
  obtain ⟨k, rfl⟩ := start
  rw [pageBits_eq, pageBits_eq]
  unfold wadd pageSize
  omega

/-- Frames behind a direct map in the upper 2^48 bytes. -/
theorem frames_few {s : Phys} {list : List Nat} (inv : Inv s list) (upper : 2 ^ 64 - 2 ^ 48 ≤ s.hhdmOffset)
    {frames : List Nat} (nodup : frames.Nodup) (used : ∀ p ∈ frames, PageIs s p .used) : frames.length ≤ 2 ^ 36 := by
  have numbers : (frames.map (· / pageSize)).Nodup := by
    apply List.Nodup.map_on _ nodup
    intro p memberP q memberQ same
    obtain ⟨alignedP, _⟩ := inv.layout.page_bounds (used p memberP)
    obtain ⟨alignedQ, _⟩ := inv.layout.page_bounds (used q memberQ)
    exact Nat.div_left_inj alignedP alignedQ |>.mp same
  have bounded : frames.map (· / pageSize) ⊆ List.range (2 ^ 36) := by
    intro number member
    obtain ⟨p, inFrames, rfl⟩ := List.mem_map.mp member
    obtain ⟨_, _, bound, _⟩ := inv.layout.page_bounds (used p inFrames)
    rw [List.mem_range]
    unfold pageSize at *
    omega
  have count := (numbers.subperm bounded).length_le
  rwa [List.length_map, List.length_range] at count

end Pages

/-- The frames hold zeros, the first bytes of the file's part and zeros again; all writes are
inside them, no byte of the file is read twice, and the frames are new pages that are mapped one
after the other. -/
structure SegmentCopied (s s' : Phys) (file : File) (ph : ProgramHeader) (top virt vaddrOffset src fileSize count : Nat)
    (rounds : List CopyRound) : Prop where
  length : rounds.length = count
  bytes : rounds.flatMap (fun round => frameBytes s' round.frame) = List.replicate vaddrOffset 0 ++
    (List.range (min fileSize (pageSize * count - vaddrOffset))).map (fun k => file (wadd src k) % 256) ++
    List.replicate (pageSize * count - vaddrOffset - min fileSize (pageSize * count - vaddrOffset)) 0
  inside : ∀ round ∈ rounds, ∀ write ∈ round.writes, round.frame + s.hhdmOffset ≤ write.addr ∧
    write.addr + write.length ≤ round.frame + s.hhdmOffset + pageSize
  reads : rounds.flatMap CopyRound.reads =
    (List.range (min fileSize (pageSize * count - vaddrOffset))).map (wadd src)
  once : (rounds.flatMap CopyRound.reads).Nodup
  frames : (rounds.map CopyRound.frame).Nodup ∧ ∀ round ∈ rounds, ¬ PageIs s round.frame .used
  mapped : ∀ (i : Nat) (round : CopyRound), rounds[i]? = some round →
    hardwareWalk s' top (wadd virt (pageSize * i)) = some (round.frame, ph.rights)

/-- The loop over the pages of a segment, from any page-aligned address where the pagemap is a
tree of its own, fills its pages or runs out of memory. -/
theorem segment_copied {s : Phys} {list : List Nat} {top : Nat} {region : Nat → Prop} {file : File}
    {ph : ProgramHeader} {virt vaddrOffset src fileSize count : Nat} (inv : Inv s list) (tree : Tree s top region)
    (opened : Open s top region) (aligned : pageSize ∣ s.hhdmOffset) (upper : 2 ^ 64 - 2 ^ 48 ≤ s.hhdmOffset)
    (start : pageSize ∣ virt) (word : virt < 2 ^ 64)
    (inside : ∀ i < count, region (pml4i (wadd virt (pageSize * i)))) (nonempty : 1 ≤ count)
    (inPage : vaddrOffset < pageSize) (small : fileSize < 2 ^ 64) :
    (∃ rounds s', copyRounds file top ph.pteFlags vaddrOffset count true virt src fileSize s = (rounds, .ok s') ∧
      loadPages file top ph.pteFlags vaddrOffset count true virt src fileSize s = .ok s' ∧
      SegmentCopied s s' file ph top virt vaddrOffset src fileSize count rounds) ∨
    (loadPages file top ph.pteFlags vaddrOffset count true virt src fileSize s = .error .outOfMemory ∧
      s.totalPages < s.usedPages + 4 * count) := by
  rcases @loop_outcome s file top ph.pteFlags vaddrOffset count virt src fileSize true region list inv tree word inside
      aligned vaddrOffset (if_pos rfl) (Nat.le_of_lt inPage) (by omega) with ⟨s', ran, done, length⟩ | failed
  · left
    obtain ⟨list', inv'⟩ := done.inv
    have result := @copyRounds_result s file top ph.pteFlags vaddrOffset count virt src fileSize true
    rw [ran] at result
    have few : count ≤ 2 ^ 36 := by
      have frames := frames_few inv' (done.hhdm.symm ▸ upper) done.nodup (fun p member => by
        obtain ⟨round, inRounds, rfl⟩ := List.mem_map.mp member
        exact (done.frames round inRounds).1)
      rwa [List.length_map, length] at frames
    refine ⟨_, s', Prod.ext rfl result, ran, length, done.bytes, done.inside, done.reads, ?_,
      ⟨done.nodup, fun round member => (done.frames round member).2⟩, ?_⟩
    · rw [done.reads]
      apply List.Nodup.map_on _ List.nodup_range
      intro k memberK l memberL same
      have belowK := List.mem_range.mp memberK
      have belowL := List.mem_range.mp memberL
      unfold wadd at same
      omega
    · intro i round here
      obtain ⟨below, _⟩ := List.getElem?_eq_some_iff.mp here
      have entry := done.entries i round here (fun j behind belowJ =>
        pageBits_run start word few behind (length ▸ belowJ))
      obtain ⟨alignedFrame, _, _, physical⟩ :=
        inv'.layout.page_bounds (done.frames round (List.mem_of_getElem? here)).1
      obtain ⟨present, masked⟩ := (isFlags_pteFlags ph).entry alignedFrame physical
      rw [← entry] at present masked
      rw [hardwareWalk_eq (done.opens opened) (inside i (length ▸ below)) present, masked, entry,
        rightsOf_entry alignedFrame physical, rightsOf_pteFlags]
  · exact .inr failed

/-- 5000 bytes from an offset of 0x100 fill two pages of a new process. -/
theorem segment_copied_two_pages : ∃ s top rounds s',
    SegmentCopied s s' (fun k => k) firstSegment top 0x400000 0x100 0 5000 2 rounds := by
  obtain ⟨s, list, space, inv, offset, made, agrees, _, room⟩ := smallProcess_at
  obtain ⟨⟨list', inv'⟩, sameOffset, empty, _⟩ := newPagemap_spec inv made
  have direct : space.phys.hhdmOffset = 0xFFFF800000000000 := sameOffset.trans offset
  have inside : ∀ i < 2, lowerHalf (pml4i (wadd 0x400000 (pageSize * i))) := by
    unfold lowerHalf
    decide
  rcases @segment_copied space.phys list' space.topLevel lowerHalf (fun k => k) firstSegment 0x400000 0x100 0 5000 2
      inv' empty.tree empty.opened agrees.offset (by rw [direct]; decide) (by decide) (by decide) inside (by decide)
      (by decide) (by decide) with ⟨rounds, s', _, _, copied⟩ | ⟨_, full⟩
  · exact ⟨space.phys, space.topLevel, rounds, s', copied⟩
  · omega

end EvalynOS.Process
