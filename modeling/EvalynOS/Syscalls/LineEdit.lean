import EvalynOS.Lib.Polling
import EvalynOS.Syscalls.Stdin

/-! One call of sys_do_hacky_stdin on the bytes of line_buffer. The console keeps the line as a
list; here it is the static buffer with line_len, and each write into it is recorded. -/
namespace EvalynOS.Stdin
open Keyboard

/- line_buffer and line_len; then the indices that were written, and whether the loop was left. -/
structure Line where
  lineBuffer : Nat → UInt8
  lineLen : Nat
  written : List Nat
  left : Bool

namespace Line

/- line_buffer[line_len++] = c -/
def put (c : UInt8) (l : Line) : Line :=
  { l with
    lineBuffer := Function.update l.lineBuffer l.lineLen c
    lineLen := l.lineLen + 1
    written := l.written ++ [l.lineLen] }

def leave (l : Line) : Line := { l with left := true }

/- One round of the loop, for which fs_read left keyPressed. -/
def round (keyPressed : UInt8) (l : Line) : Line :=
  -- the thread sleeps for a millisecond
  if keyPressed = 0 then l
  else
    let c := if keyPressed = 13 then 10 else keyPressed
    if c = 10 then (l.put 10).leave
    else if c = 8 ∨ c = 0x7F then
      if 0 < l.lineLen then { l with lineLen := l.lineLen - 1 } else l
    else if c < 0x20 ∨ 0x7E < c then l
    else
      let l := l.put c
      if lineBufSize - 1 ≤ l.lineLen then (l.put 10).leave else l

def text (l : Line) : List UInt8 := (List.range l.lineLen).map l.lineBuffer

def toCopy (count : Nat) (l : Line) : Nat := if l.lineLen < count then l.lineLen else count

end Line

/- The rounds that were made, the bytes that copy_to_user was given, frame->rax, and the line
that is left for the next call. -/
structure Outcome where
  reads : Nat
  copied : List UInt8
  rax : Nat
  line : Line

/- The call, where the read of round k gives keys k. -/
def sysDoHackyStdin (keys : Nat → UInt8) (count : Nat) (lineBuffer : Nat → UInt8) (fuel : Nat) :
    Option Outcome :=
  let start : Line := ⟨lineBuffer, 0, [], false⟩
  (Lib.poll (fun l => !l.left) (fun k l => l.round (keys (k - 1))) fuel 0 start).map
    fun (reads, l) =>
      let toCopy := l.toCopy count
      ⟨reads, (List.range toCopy).map l.lineBuffer, toCopy, { l with lineLen := 0 }⟩

/-! The edit of the keys by themselves. -/

def edit (line : List UInt8) (key : UInt8) : List UInt8 :=
  if isBackspace key then line.dropLast
  else if isPrintable key then line ++ [key]
  else line

def pending (keys : List UInt8) : List UInt8 := keys.foldl edit []

def consumed (keys : Nat → UInt8) (n : Nat) : List UInt8 := (List.range n).map keys

/- The key n ends the line. -/
def Ends (keys : Nat → UInt8) (n : Nat) : Prop :=
  isNewline (keys n) = true ∨ lineBufSize - 1 ≤ (pending (consumed keys (n + 1))).length

instance (keys : Nat → UInt8) (n : Nat) : Decidable (Ends keys n) := inferInstanceAs (Decidable (_ ∨ _))

section Edit

variable {keys : Nat → UInt8} {key c : UInt8} {l : Line} {line : List UInt8} {n : Nat}

theorem pending_succ : pending (consumed keys (n + 1)) = edit (pending (consumed keys n)) (keys n) := by
  unfold pending consumed
  rw [List.range_succ, List.map_append, List.foldl_append]
  rfl

theorem edit_newline (newline : isNewline key = true) : edit line key = line := by
  simp only [isNewline, Bool.or_eq_true, decide_eq_true_eq] at newline
  rcases newline with rfl | rfl
  · rfl
  · rfl

@[simp] theorem Line.left_leave : l.leave.left = true := rfl

theorem Line.length_text : l.text.length = l.lineLen := by
  unfold Line.text
  rw [List.length_map, List.length_range]

theorem Line.text_put : (l.put c).text = l.text ++ [c] := by
  unfold Line.text Line.put
  rw [List.range_succ, List.map_append]
  congr 1
  · apply List.map_congr_left
    intro i member
    have behind : i ≠ l.lineLen := Nat.ne_of_lt (List.mem_range.mp member)
    exact Function.update_of_ne behind c l.lineBuffer
  · simp only [List.map_singleton, Function.update_self]

theorem Line.text_erase : ({ l with lineLen := l.lineLen - 1 } : Line).text = l.text.dropLast := by
  unfold Line.text
  rw [List.dropLast_eq_take, List.length_map, List.length_range, ← List.map_take, List.take_range,
    Nat.min_eq_left (Nat.sub_le _ _)]

/-- What a round does to the line, by the kind of the key. -/
theorem Line.round_cases (key : UInt8) (l : Line) :
    (isNewline key = true ∧ l.round key = (l.put 10).leave) ∨
    (isNewline key = false ∧ isBackspace key = false ∧ isPrintable key = true ∧
      l.round key = if lineBufSize - 1 ≤ (l.put key).lineLen then ((l.put key).put 10).leave else l.put key) ∨
    (isNewline key = false ∧ (l.round key).left = l.left ∧ (l.round key).written = l.written ∧
      (l.round key).text = edit l.text key ∧ (l.round key).lineLen ≤ l.lineLen) := by
  unfold Line.round
  by_cases zero : key = 0
  · subst zero
    exact Or.inr (Or.inr ⟨rfl, rfl, rfl, rfl, Nat.le_refl _⟩)
  · rw [if_neg zero]
    by_cases newline : isNewline key = true
    · refine Or.inl ⟨newline, ?_⟩
      have lineFeed : (if key = 13 then 10 else key) = 10 := by
        simp only [isNewline, Bool.or_eq_true, decide_eq_true_eq] at newline
        rcases newline with rfl | rfl
        · rfl
        · rfl
      simp only [lineFeed, ↓reduceIte]
    · have other : key ≠ 10 ∧ key ≠ 13 := by simpa [isNewline] using newline
      rw [Bool.not_eq_true] at newline
      simp only [if_neg other.1, if_neg other.2]
      by_cases back : key = 8 ∨ key = 0x7F
      · have isBack : isBackspace key = true := by simpa [isBackspace] using back
        rw [if_pos back]
        refine Or.inr (Or.inr ⟨newline, ?_⟩)
        have edited : edit l.text key = l.text.dropLast := if_pos isBack
        split
        · exact ⟨rfl, rfl, Line.text_erase.trans edited.symm, Nat.sub_le _ _⟩
        · have empty : l.text = [] := by
            apply List.length_eq_zero_iff.mp
            rw [Line.length_text]
            omega
          refine ⟨rfl, rfl, ?_, Nat.le_refl _⟩
          rw [edited, empty, List.dropLast_nil]
      · have notBack : isBackspace key = false := by simpa [isBackspace] using back
        rw [if_neg back]
        by_cases ignored : key < 0x20 ∨ 0x7E < key
        · have notPrintable : isPrintable key = false := by
            rw [isPrintable, Bool.and_eq_false_iff, decide_eq_false_iff_not, decide_eq_false_iff_not,
              UInt8.not_le, UInt8.not_le]
            exact ignored
          rw [if_pos ignored]
          refine Or.inr (Or.inr ⟨newline, rfl, rfl, ?_, Nat.le_refl _⟩)
          rw [edit, notBack, notPrintable, if_neg Bool.false_ne_true, if_neg Bool.false_ne_true]
        · have printable : isPrintable key = true := by
            rw [not_or, UInt8.not_lt, UInt8.not_lt] at ignored
            rw [isPrintable, Bool.and_eq_true, decide_eq_true_eq, decide_eq_true_eq]
            exact ignored
          rw [if_neg ignored]
          exact Or.inr (Or.inl ⟨newline, notBack, printable, rfl⟩)

/-- The list that the console keeps is the text of the buffer: its polls are the rounds. -/
theorem poll_round {c : Console} {count : Nat} (same : c.line = l.text) (goesOn : l.left = false) :
    let r := l.round ((kbdDeviceRead 1 c.ring).1.headD 0)
    c.poll count =
      if r.left then Console.finish { c with ring := (kbdDeviceRead 1 c.ring).2 } count r.text
      else { c with ring := (kbdDeviceRead 1 c.ring).2, line := r.text } := by
  unfold Console.poll
  simp only
  generalize (kbdDeviceRead 1 c.ring).1.headD 0 = key
  rcases Line.round_cases key l with ⟨newline, result⟩ | ⟨newline, back, printable, result⟩ |
    ⟨newline, left, -, text, shorter⟩
  · have pressed : key ≠ 0 := by
      rintro rfl
      cases newline
    have ended : ((l.put 10).leave).text = c.line ++ [10] := Line.text_put.trans (by rw [same])
    rw [if_neg pressed, if_pos newline, result, Line.left_leave, if_pos rfl, ended]
  · have pressed : key ≠ 0 := by
      rintro rfl
      cases printable
    have size : (c.line ++ [key]).length = (l.put key).lineLen := by
      rw [same, ← Line.text_put, Line.length_text]
    rw [if_neg pressed, newline, back, printable, if_neg Bool.false_ne_true, if_neg Bool.false_ne_true,
      if_neg (not_not_intro rfl), size, result]
    split
    · have ended : (((l.put key).put 10).leave).text = c.line ++ [key] ++ [10] := by
        rw [same, ← Line.text_put, ← Line.text_put]
        rfl
      rw [Line.left_leave, if_pos rfl, ended]
    · have longer : (l.put key).text = c.line ++ [key] := Line.text_put.trans (by rw [same])
      rw [longer, if_neg]
      change ¬ l.left = true
      rw [goesOn]
      exact Bool.false_ne_true
  · have calm : isBackspace key = false → isPrintable key = false := by
      intro back
      by_contra printable
      have length := Line.length_text (l := l.round key)
      rw [text, edit, back, if_neg Bool.false_ne_true, if_pos (Bool.not_eq_false _ ▸ printable), List.length_append,
        List.length_singleton, Line.length_text] at length
      omega
    rw [left, goesOn, if_neg Bool.false_ne_true, text, ← same, newline, if_neg Bool.false_ne_true]
    unfold edit
    cases back : isBackspace key with
    | true =>
      have pressed : key ≠ 0 := by
        rintro rfl
        cases back
      rw [if_neg pressed, if_pos rfl, if_pos rfl]
    | false =>
      rw [calm back, if_neg Bool.false_ne_true, if_neg Bool.false_ne_true, if_neg Bool.false_ne_true,
        if_pos Bool.false_ne_true, ite_self]

/-- What holds while the line goes on: the buffer holds the edit of the keys so far, with room
for two more bytes. -/
structure Editing (keys : Nat → UInt8) (n : Nat) (l : Line) : Prop where
  goesOn : l.left = false
  holds : l.text = pending (consumed keys n)
  room : l.lineLen < lineBufSize - 1
  inside : ∀ i ∈ l.written, i < lineBufSize

/-- The round of a key that does not end the line. -/
theorem Editing.next (editing : Editing keys n l) (unended : ¬ Ends keys n) :
    Editing keys (n + 1) (l.round (keys n)) := by
  have length : (pending (consumed keys (n + 1))).length < lineBufSize - 1 :=
    Nat.not_le.mp (fun full => unended (Or.inr full))
  rw [pending_succ, ← editing.holds] at length
  rcases Line.round_cases (keys n) l with ⟨newline, -⟩ | ⟨newline, back, printable, result⟩ |
    ⟨newline, same, written, text, shorter⟩
  · exact absurd (Or.inl newline) unended
  · have appended : edit l.text (keys n) = l.text ++ [keys n] := by
      rw [edit, back, printable, if_neg Bool.false_ne_true, if_pos rfl]
    rw [appended, List.length_append, List.length_singleton, Line.length_text] at length
    have fits : ¬ lineBufSize - 1 ≤ (l.put (keys n)).lineLen := Nat.not_le.mpr length
    rw [result, if_neg fits]
    refine ⟨editing.goesOn, ?_, length, ?_⟩
    · rw [Line.text_put, pending_succ, ← editing.holds, appended]
    · intro i member
      rcases List.mem_append.mp member with earlier | now
      · exact editing.inside i earlier
      · rw [List.mem_singleton.mp now]
        have room := editing.room
        omega
  · refine ⟨same.trans editing.goesOn, ?_, Nat.lt_of_le_of_lt shorter editing.room, ?_⟩
    · rw [text, pending_succ, editing.holds]
    · rw [written]
      exact editing.inside

/-- The round of the key that ends it: one more byte, the newline, is written. -/
theorem Editing.ends (editing : Editing keys n l) (ends : Ends keys n) :
    (l.round (keys n)).left = true ∧ (l.round (keys n)).text = pending (consumed keys (n + 1)) ++ [10] ∧
      (l.round (keys n)).lineLen ≤ lineBufSize ∧ ∀ i ∈ (l.round (keys n)).written, i < lineBufSize := by
  have room := editing.room
  unfold Ends at ends
  rw [pending_succ, ← editing.holds] at ends ⊢
  rcases Line.round_cases (keys n) l with ⟨newline, result⟩ | ⟨newline, back, printable, result⟩ |
    ⟨newline, same, written, text, shorter⟩
  · rw [result, edit_newline newline]
    refine ⟨rfl, Line.text_put, Nat.le_trans room (by decide), ?_⟩
    intro i member
    rcases List.mem_append.mp member with earlier | now
    · exact editing.inside i earlier
    · rw [List.mem_singleton.mp now]
      omega
  · have appended : edit l.text (keys n) = l.text ++ [keys n] := by
      rw [edit, back, printable, if_neg Bool.false_ne_true, if_pos rfl]
    rw [appended] at ends ⊢
    have full : lineBufSize - 1 ≤ (l.put (keys n)).lineLen := by
      rcases ends with newline' | long
      · rw [newline] at newline'
        cases newline'
      · rw [List.length_append, List.length_singleton, Line.length_text] at long
        exact long
    rw [result, if_pos full]
    have size : (l.put (keys n)).lineLen = l.lineLen + 1 := rfl
    refine ⟨rfl, ?_, ?_, ?_⟩
    · have texts : ((l.put (keys n)).put 10).text = l.text ++ [keys n] ++ [10] := by
        rw [Line.text_put, Line.text_put]
      exact texts
    · change l.lineLen + 1 + 1 ≤ lineBufSize
      omega
    · intro i member
      rcases List.mem_append.mp member with before | last
      · rcases List.mem_append.mp before with earlier | now
        · exact editing.inside i earlier
        · rw [List.mem_singleton.mp now]
          omega
      · rw [List.mem_singleton.mp last, size]
        omega
  · -- the line is no longer than before
    have short : (edit l.text (keys n)).length < lineBufSize - 1 := by
      rw [← text, Line.length_text]
      exact Nat.lt_of_le_of_lt shorter room
    rcases ends with newline' | long
    · rw [newline] at newline'
      cases newline'
    · omega

/- The line after n rounds. -/
abbrev roundsFrom (keys : Nat → UInt8) (l : Line) (n : Nat) : Line :=
  Lib.afterReads (fun k l => l.round (keys (k - 1))) l n

theorem editing_rounds {lineBuffer : Nat → UInt8} (goesOn : ∀ m < n, ¬ Ends keys m) :
    Editing keys n (roundsFrom keys ⟨lineBuffer, 0, [], false⟩ n) := by
  induction n with
  | zero =>
    refine ⟨rfl, rfl, Nat.succ_pos 254, ?_⟩
    intro i member
    cases member
  | succ n ih =>
    have before := ih (fun m earlier => goesOn m (Nat.lt_succ_of_lt earlier))
    exact before.next (goesOn n (Nat.lt_succ_self n))

end Edit

/-- A call on an empty line, for keys that end it at some point, reads up to the first such key
and returns the edit of what it read, with a newline. -/
theorem line_edited {keys : Nat → UInt8} {lineBuffer : Nat → UInt8} {count : Nat} (ends : ∃ n, Ends keys n) :
    ∃ n outcome, Ends keys n ∧ (∀ m < n, ¬ Ends keys m) ∧
      (∀ fuel, n + 1 < fuel → sysDoHackyStdin keys count lineBuffer fuel = some outcome) ∧
      outcome.reads = n + 1 ∧ (∀ i ∈ outcome.line.written, i < lineBufSize) ∧ outcome.line.lineLen = 0 ∧
      (lineBufSize ≤ count → outcome.copied = pending (consumed keys (n + 1)) ++ [10] ∧
        outcome.rax = outcome.copied.length) := by
  obtain ⟨n, last, first⟩ : ∃ n, Ends keys n ∧ ∀ m < n, ¬ Ends keys m :=
    ⟨Nat.find ends, Nat.find_spec ends, fun m before => Nat.find_min ends before⟩
  let start : Line := ⟨lineBuffer, 0, [], false⟩
  have editing : ∀ m ≤ n, Editing keys m (roundsFrom keys start m) := by
    intro m reached
    exact editing_rounds (fun j before => first j (Nat.lt_of_lt_of_le before reached))
  obtain ⟨left, text, size, inside⟩ := (editing n (Nat.le_refl n)).ends last
  let l := (roundsFrom keys start n).round (keys n)
  refine ⟨n, ⟨n + 1, (List.range (l.toCopy count)).map l.lineBuffer, l.toCopy count, { l with lineLen := 0 }⟩,
    last, first, ?_, rfl, inside, rfl, ?_⟩
  · intro fuel enough
    have polled : Lib.Polled (fun l : Line => !l.left) (fun k l => l.round (keys (k - 1))) start (n + 1) := by
      intro m before
      have goesOn := (editing m (Nat.le_of_lt_succ before)).goesOn
      change (!(roundsFrom keys start m).left) = true
      rw [goesOn]
      rfl
    have result := (Lib.poll_eq_some (t := l)).mpr ⟨enough, polled, by rw [left]; rfl, rfl⟩
    change (Lib.poll _ _ fuel 0 start).map _ = _
    rw [result]
    rfl
  · intro room
    have fits : l.lineLen ≤ count := Nat.le_trans size room
    have whole : l.toCopy count = l.lineLen := by
      unfold Line.toCopy
      split
      · rfl
      · omega
    rw [whole]
    exact ⟨text, by rw [List.length_map, List.length_range]⟩

/-- "hi" with a slip, after a round without a key. -/
theorem line_edited_slip : ∃ keys : Nat → UInt8, ∃ n outcome, n = 5 ∧ Ends keys n ∧
    sysDoHackyStdin keys 256 (fun _ => 0) 7 = some outcome ∧ outcome.copied = [104, 105, 10] := by
  let keys : Nat → UInt8 := fun n => [0, 104, 120, 127, 105, 13].getD n 97
  have ends : Ends keys 5 := Or.inl rfl
  obtain ⟨n, outcome, last, first, result, reads, -, -, whole⟩ := @line_edited keys (fun _ => 0) 256 ⟨5, ends⟩
  have open' : ∀ m < 5, ¬ Ends keys m := by decide +kernel
  have position : n = 5 := by
    rcases Nat.lt_trichotomy n 5 with before | same | behind
    · exact absurd last (open' n before)
    · exact same
    · exact absurd ends (first 5 behind)
  subst position
  refine ⟨keys, 5, outcome, rfl, ends, result 7 (by decide), ?_⟩
  rw [(whole (Nat.le_refl _)).1]
  decide +kernel

end EvalynOS.Stdin
