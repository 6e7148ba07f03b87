import AppendStore.Library.FileSystem

/-! # A buffered writer over a file

Bytes are collected in a buffer and reach the file when the buffer is full, or when it is flushed. The
first error of a write stays with the writer, and later writes do nothing. `Wrote d w b`: the bytes
given to the writer so far are `b`, of which the file holds all but the buffered ones.
-/

namespace AppendStore.Library
set_option autoImplicit false

structure BufferedWriter where
  file : OsFile
  capacity : ℕ
  buffered : Bytes
  /-- Where in the file the next write goes. -/
  offset : ℕ
  err : Option OsError
  deriving DecidableEq, Repr

namespace BufferedWriter

def new (file : OsFile) (capacity : ℕ) : BufferedWriter := ⟨file, capacity, [], 0, none⟩

def available (w : BufferedWriter) : ℕ := w.capacity - w.buffered.length

/-- One write to the file. -/
def writeFile (w : BufferedWriter) (b : Bytes) : FileProg (Except OsError Unit × BufferedWriter) :=
  (Sys.writeAt w.file w.offset b).orElse (fun e => pure (.error e, { w with err := some e }))
    fun _ => pure (.ok (), { w with offset := w.offset + b.length })

def flush (w : BufferedWriter) : FileProg (Except OsError Unit × BufferedWriter) :=
  match w.err with
  | some e => pure (.error e, w)
  | none =>
    if w.buffered = [] then pure (.ok (), w)
    else
      (w.writeFile w.buffered).orElseState (fun e w => pure (.error e, w))
        fun _ w => pure (.ok (), { w with buffered := [] })

/-- The loop of a write that does not fit: a buffer that holds something is filled and flushed, an empty
one is passed by. It leaves what is still to be buffered. -/
def spill : ℕ → BufferedWriter → Bytes → FileProg (BufferedWriter × Bytes)
  | 0, w, b => pure (w, b)
  | fuel + 1, w, b =>
    if b.length > w.available ∧ w.err = none then
      if w.buffered = [] then do
        let (_, w) ← w.writeFile b
        spill fuel w []
      else do
        let (_, w') ← ({ w with buffered := w.buffered ++ b.take w.available } : BufferedWriter).flush
        spill fuel w' (b.drop w.available)
    else pure (w, b)

/-- Two rounds are enough: after the first the buffer is empty, after the second nothing is left. -/
def write (w : BufferedWriter) (b : Bytes) : FileProg BufferedWriter := do
  let (w, rest) ← spill 2 w b
  if w.err = none then pure { w with buffered := w.buffered ++ rest } else pure w

end BufferedWriter

/-! ## The bytes given to a writer -/

namespace BufferedWriter

/-- The writer without an error, after the bytes `b`. -/
structure Wrote (d : Disk) (w : BufferedWriter) (b : Bytes) : Prop where
  isOpen : w.file.isOpen = true
  err : w.err = none
  offset : w.offset = (d.files w.file.inode).content.length
  content : (d.files w.file.inode).content ++ w.buffered = b
  room : w.buffered.length ≤ w.capacity

section
variable {d : Disk} {w : BufferedWriter} {b : Bytes}

theorem wrote_new {file : OsFile} (hopen : file.isOpen = true) (capacity : ℕ)
    (hempty : (d.files file.inode).content = []) : Wrote d (new file capacity) [] :=
  ⟨hopen, rfl, by rw [new, hempty]; rfl, by rw [new, hempty]; rfl, Nat.zero_le _⟩

/-- A write to the file puts its bytes in front of the buffered ones. -/
theorem exec_writeFile (hopen : w.file.isOpen = true) (hoffset : w.offset = (d.files w.file.inode).content.length)
    (p : Bytes) :
    Disk.exec (w.writeFile p) d = ((.ok (), { w with offset := w.offset + p.length }),
      d.setContent w.file.inode ((d.files w.file.inode).content ++ p)) := by
  have hwrite := Disk.exec_writeAt hopen d w.offset p
  rw [hoffset, writeAt_end] at hwrite
  unfold writeFile
  rw [hoffset, Disk.exec_orElse_ok hwrite]
  rfl

/-- **A flush leaves nothing in the buffer.** -/
theorem exec_flush (hopen : w.file.isOpen = true) (herr : w.err = none)
    (hoffset : w.offset = (d.files w.file.inode).content.length)
    (hcontent : (d.files w.file.inode).content ++ w.buffered = b) :
    ∃ w' d', Disk.exec w.flush d = ((.ok (), w'), d') ∧ Wrote d' w' b ∧ w'.buffered = [] ∧
      w'.file = w.file ∧ w'.capacity = w.capacity ∧ Touched d d' w.file.inode := by
  unfold flush
  rw [herr]
  dsimp only
  by_cases hempty : w.buffered = []
  · rw [if_pos hempty]
    refine ⟨w, d, rfl, ⟨hopen, herr, hoffset, hcontent, ?_⟩, hempty, rfl, rfl, touched_refl d _⟩
    rw [hempty]
    exact Nat.zero_le _
  · rw [if_neg hempty, Disk.exec_orElseState_ok (exec_writeFile hopen hoffset w.buffered)]
    refine ⟨_, _, rfl, ⟨hopen, herr, ?_, ?_, Nat.zero_le _⟩, rfl, rfl, rfl, touched_setContent d _ _⟩
    · simp only [Disk.content_setContent, List.length_append, hoffset]
    · simp only [Disk.content_setContent, List.append_nil, hcontent]

/-- The second round: what is left goes to the file, or into the empty buffer. -/
theorem exec_spill_empty (h : Wrote d w b) (hempty : w.buffered = []) (p : Bytes) (fuel : ℕ) :
    ∃ w' rest d', Disk.exec (spill (fuel + 1) w p) d = ((w', rest), d') ∧
      Wrote d' { w' with buffered := w'.buffered ++ rest } (b ++ p) ∧
      w'.file = w.file ∧ w'.capacity = w.capacity ∧ Touched d d' w.file.inode := by
  have hcontent := h.content
  rw [hempty, List.append_nil] at hcontent
  unfold spill
  by_cases hfits : p.length > w.available
  · rw [if_pos ⟨hfits, h.err⟩, if_pos hempty, Disk.exec_bind_eq (exec_writeFile h.isOpen h.offset p)]
    have hdone : ∀ (w' : BufferedWriter) (d' : Disk), Disk.exec (spill fuel w' []) d' = ((w', []), d') := by
      intro w' d'
      cases fuel with
      | zero => rfl
      | succ fuel =>
        unfold spill
        rw [if_neg fun hc => Nat.not_lt_zero _ hc.1]
        rfl
    refine ⟨_, _, _, hdone _ _, ⟨h.isOpen, h.err, ?_, ?_, ?_⟩, rfl, rfl, touched_setContent d _ _⟩
    · simp only [Disk.content_setContent, List.length_append, h.offset]
    · simp only [Disk.content_setContent, List.append_nil, hempty, hcontent]
    · simp only [hempty, List.append_nil, List.length_nil, Nat.zero_le]
  · rw [if_neg fun hc => hfits hc.1]
    refine ⟨w, p, d, rfl, ⟨h.isOpen, h.err, h.offset, ?_, ?_⟩, rfl, rfl, touched_refl d _⟩
    · simp only [hempty, List.nil_append, hcontent]
    · simp only [available, hempty, List.length_nil, Nat.sub_zero, gt_iff_lt, Nat.not_lt] at hfits
      simpa only [hempty, List.nil_append] using hfits

/-- **A write adds its bytes.** -/
theorem exec_write (h : Wrote d w b) (p : Bytes) :
    ∃ w' d', Disk.exec (w.write p) d = (w', d') ∧ Wrote d' w' (b ++ p) ∧ w'.file = w.file ∧
      Touched d d' w.file.inode := by
  have hspill : ∃ w' rest d', Disk.exec (spill 2 w p) d = ((w', rest), d') ∧
      Wrote d' { w' with buffered := w'.buffered ++ rest } (b ++ p) ∧ w'.file = w.file ∧
      Touched d d' w.file.inode := by
    by_cases hempty : w.buffered = []
    · obtain ⟨w', rest, d', hexec, hw, hfile, -, ht⟩ := exec_spill_empty h hempty p 1
      exact ⟨w', rest, d', hexec, hw, hfile, ht⟩
    · unfold spill
      by_cases hfits : p.length > w.available
      · rw [if_pos ⟨hfits, h.err⟩, if_neg hempty]
        obtain ⟨w1, d1, hflush, hw1, hempty1, hfile1, -, ht1⟩ := exec_flush
          (w := { w with buffered := w.buffered ++ p.take w.available }) h.isOpen h.err h.offset rfl
        obtain ⟨w', rest, d', hexec, hw, hfile, -, ht⟩ := exec_spill_empty hw1 hempty1 (p.drop w.available) 0
        refine ⟨w', rest, d', (Disk.exec_bind_eq hflush _).trans hexec, ?_, hfile.trans hfile1, ?_⟩
        · have hb := h.content
          rwa [← List.append_assoc, hb, List.append_assoc, List.take_append_drop] at hw
        · rw [hfile1] at ht
          exact ht1.trans ht
      · rw [if_neg fun hc => hfits hc.1]
        refine ⟨w, p, d, rfl, ⟨h.isOpen, h.err, h.offset, ?_, ?_⟩, rfl, touched_refl d _⟩
        · rw [← List.append_assoc, h.content]
        · have hroom := h.room
          unfold available at hfits
          simp only [List.length_append]
          omega
  obtain ⟨w', rest, d', hexec, hw, hfile, ht⟩ := hspill
  refine ⟨{ w' with buffered := w'.buffered ++ rest }, d', ?_, hw, hfile, ht⟩
  have herr : w'.err = none := hw.err
  unfold write
  rw [Disk.exec_bind_eq hexec]
  dsimp only
  rw [if_pos herr]
  rfl

end

end BufferedWriter

end AppendStore.Library
