import AppendStore.Format.Corruption
import AppendStore.Store.Outcomes
import AppendStore.Store.PointReads

/-! # Damaged logs

Damage to a few bytes of a log written by `Append`. Behind the length of a record, a change of at most
four consecutive bytes is found by `Open` and by every point read (`damage_detected`).

The length itself is not hashed. `Open` finds the log corrupt exactly if the changed length is one that
the fields of the record rule out, or ends inside the file where the checksum does not match
(`LengthCaught`, `length_damage_iff`). A length that reaches past the end of the file makes the record
look torn, and `Open` cuts the log off in front of it with all that follows (`length_damage_swallows`).
-/

namespace AppendStore
open Library
set_option autoImplicit false

/-! ## Corrupt bytes -/

/-- Whole records, and then bytes that the reader refuses for another reason than that they end. -/
def Corrupt (pos : ℕ) (b : Bytes) : Prop :=
  ∃ (recs : List (Rec logVersion)) (tail : Bytes) (e : Err), b = concat recs ++ tail ∧
    AppendLog.readRecord logVersion (pos + (concat recs).length) tail = .error e ∧ e.isEOF = false

section
variable {pos : ℕ} {b : Bytes} {e : Err}

theorem corrupt_of_error (h : AppendLog.readRecord logVersion pos b = .error e) (heof : e.isEOF = false) :
    Corrupt pos b :=
  ⟨[], b, e, rfl, h, heof⟩

theorem not_corrupt_of_cut (h : Cut logVersion pos b) : ¬ Corrupt pos b := by
  rintro ⟨recs, tail, e', hb, he', hno⟩
  have hstop : Stops logVersion pos b := h.imp_right fun ⟨e, he, _⟩ => ⟨e, he⟩
  have hb' : concat ([] : List (Rec logVersion)) ++ b = concat recs ++ tail := hb
  obtain ⟨rfl, rfl⟩ := parse_unique hb' hstop (.inr ⟨e', he'⟩)
  rcases h with rfl | ⟨e, he, heof⟩
  · cases he'
    cases hno
  · rw [show pos + (concat ([] : List (Rec logVersion))).length = pos from rfl, he] at he'
    cases he'
    rw [heof] at hno
    cases hno

theorem corrupt_concat (pos : ℕ) (pre : List (Rec logVersion)) (t : Bytes) :
    Corrupt pos (concat pre ++ t) ↔ Corrupt (pos + (concat pre).length) t := by
  constructor
  · rintro ⟨recs, tail, e, hb, he, heof⟩
    obtain ⟨recs', tail', rfl, hstop⟩ := parse_exists logVersion (pos + (concat pre).length) t
    rw [← List.append_assoc, ← concat_append] at hb
    obtain ⟨rfl, rfl⟩ := parse_unique hb hstop (.inr ⟨e, he⟩)
    rw [concat_append, List.length_append, ← Nat.add_assoc] at he
    exact ⟨recs', tail', e, rfl, he, heof⟩
  · rintro ⟨recs, tail, e, rfl, he, heof⟩
    refine ⟨pre ++ recs, tail, e, by rw [concat_append, List.append_assoc], ?_, heof⟩
    rw [concat_append, List.length_append, ← Nat.add_assoc]
    exact he

end

/-- `Open` reports that the log is corrupt, and leaves it as it was. -/
def FoundCorrupt (d : Disk) (path : Path) (options : Options) (i : ℕ) : Prop :=
  ∃ e d', Disk.exec (openStore path options) d = (.error e, d') ∧ e.is .corruptedData = true ∧ Refused d d' path i

/-- **`Open` finds exactly the corrupt files corrupt.** -/
theorem foundCorrupt_iff {d : Disk} {path : Path} {options : Options} {i : ℕ} {rest : Bytes}
    (hacc : options.Accepted path) (hs : d.Sound) (hfree : LockFree d path)
    (hmain : recoveredMain d.dir path = some i) (hcontent : (d.files i).content = currentHeader ++ rest) :
    FoundCorrupt d path options i ↔ Corrupt logHeaderSize rest := by
  have hheader : readHeaderOf (d.files i).content = .ok ⟨logVersion, 0, 0⟩ := by
    rw [hcontent]
    exact readHeaderOf_current rest
  have hsplit : ∀ (recs : List (Rec logVersion)) tail, rest = concat recs ++ tail →
      (d.files i).content = (d.files i).content.take logHeaderSize ++ concat recs ++ tail := by
    rintro recs tail rfl
    rw [hcontent, List.take_left' currentHeader_length, List.append_assoc]
  constructor
  · rintro ⟨e, d', hopen, -, -⟩
    obtain ⟨recs, tail, hrest, hstop⟩ := parse_exists logVersion logHeaderSize rest
    by_contra hsound
    have hcut : Cut logVersion (logHeaderSize + (concat recs).length) tail := by
      rcases hstop with rfl | ⟨e, he⟩
      · exact .inl rfl
      · cases heof : e.isEOF with
        | true => exact .inr ⟨e, he, heof⟩
        | false => exact absurd ⟨recs, tail, e, hrest, he, heof⟩ hsound
    obtain ⟨s, d1, hok, -⟩ := exec_openStore_reads hacc hs hfree hmain
      ⟨hheader, rfl, tail, hsplit recs tail hrest, hcut⟩
      rfl (fun hlt => absurd hlt (Nat.lt_irrefl _))
    rw [hopen] at hok
    cases hok
  · rintro ⟨recs, tail, e, hrest, he, heof⟩
    have htail : tail ≠ [] := by
      rintro rfl
      cases he
      cases heof
    obtain ⟨d', hopen, hrefused⟩ :=
      exec_openStore_corrupt hacc hs hfree hmain hheader rfl (hsplit recs tail hrest) htail
      he heof
    exact ⟨_, d', hopen, rfl, hrefused⟩

/-! ## Records of `Append` -/

/-- The fields of a record of version 4 or 5. -/
theorem Rec.raw {version : ℕ} (hv : 4 ≤ version) (x : Rec version) :
    ∃ r m, RawRecord.Accepted r m ∧ x.bytes = r.bytes ∧ x.valueAt + x.value.length = r.known := by
  have hscan := x.scanned 0 []
  rw [AppendLog.readRecord, if_pos hv] at hscan
  obtain ⟨r, m, hacc, hbytes, hout⟩ := readRecordFrom_ok hscan
  simp only [RawRecord.entry, Prod.mk.injEq, LogRecord.mk.injEq] at hout
  refine ⟨r, m, hacc, by simpa using hbytes, ?_⟩
  have hoffset := hout.1.2.1
  have hsize := hout.1.2.2.1
  rw [RawRecord.known]
  omega

theorem placed_eq_append {version : ℕ} {recs : List (Rec version)} {pos : ℕ} {xs ys : List (ℕ × Rec version)}
    {y : ℕ × Rec version} (h : placed pos recs = xs ++ y :: ys) :
    ∃ pre post, recs = pre ++ y.2 :: post ∧ y.1 = pos + (concat pre).length := by
  induction recs generalizing pos xs with
  | nil => simp at h
  | cons r recs ih =>
    cases xs with
    | nil =>
      rw [placed, List.nil_append, List.cons.injEq] at h
      obtain ⟨rfl, -⟩ := h
      exact ⟨[], recs, rfl, rfl⟩
    | cons x xs =>
      rw [placed, List.cons_append, List.cons.injEq] at h
      obtain ⟨pre, post, rfl, hy⟩ := ih h.2
      refine ⟨r :: pre, post, rfl, ?_⟩
      rw [hy, concat_cons, List.length_append, Nat.add_assoc]

section
variable {calls : List AppendArgs} {ps : List AppendLog.Placed} {l l' : AppendLog} {d d' : Disk} {p : AppendLog.Placed}

/-- The record that a call of `Append` wrote, and what is around it in the file. -/
theorem appended_split (hfresh : LogImage d l currentHeader ([] : List (Rec logVersion)))
    (hcalls : Disk.exec (l.appendAll calls) d = ((.ok ps, l'), d')) (hp : p ∈ ps) :
    ∃ (pre post : List (Rec logVersion)) (x : Rec logVersion),
      (d'.files l'.file.inode).content = currentHeader ++ concat pre ++ x.bytes ++ concat post ∧
      p = Rec.placement (logHeaderSize + (concat pre).length, x) := by
  obtain ⟨news, himage, rfl⟩ := exec_appendAll hfresh hcalls
  obtain ⟨y, hy, rfl⟩ := List.mem_map.mp hp
  obtain ⟨xs, ys, hxy⟩ := List.append_of_mem hy
  obtain ⟨pre, post, hnews, hpos⟩ := placed_eq_append hxy
  refine ⟨pre, post, y.2, ?_, by rw [← show y.1 = logHeaderSize + (concat pre).length from hpos]⟩
  rw [himage.content, List.nil_append, hnews, concat_append, concat_cons]
  simp only [List.append_assoc]

end

/-! ## Damage behind the length -/

/-- Every point read of `n` bytes at a position fails with the error. -/
structure Unreadable (d : Disk) (l : AppendLog) (pos n : ℕ) (e : Err) : Prop where
  at_ : Disk.exec (l.readRecordAt pos n) d = (.error e, d)
  into : ∀ scratch, ∃ scratch', Disk.exec (l.readRecordAtInto pos n scratch) d = ((.error e, scratch'), d)
  extensions : Disk.exec (l.readRecordAndExtensionsAt pos n) d = (.error e, d)

/-- The point reads of bytes that the validator refuses. -/
theorem unreadable_of_invalid {d : Disk} {l : AppendLog} {pos : ℕ} {b : Bytes} {e : Err} (hopen : l.file.isOpen = true)
    (hsize : checkStoredSize b.length = .ok ())
    (hbytes : slice (d.files l.file.inode).content pos (pos + b.length) = b)
    (hin : pos + b.length ≤ (d.files l.file.inode).content.length) (hbad : validateStoredRecord b = .error e) :
    Unreadable d l pos b.length e := by
  have hread := Disk.exec_readAt hopen d pos b.length hin
  rw [hbytes] at hread
  have hvalue : AppendLog.storedValue b = .error e := by rw [AppendLog.storedValue, hbad]
  have hboth : AppendLog.storedValueAndExtensions b = .error e := by rw [AppendLog.storedValueAndExtensions, hbad]
  have hfile : ∀ scratch, ∃ scratch', Disk.exec (l.readRecordFromFile pos b.length scratch) d =
      ((.error e, scratch'), d) := by
    intro scratch
    unfold AppendLog.readRecordFromFile
    rw [Disk.exec_orElse_ok hread]
    dsimp only
    rw [List.take_left, hvalue]
    exact ⟨_, rfl⟩
  have hmapped := Disk.exec_mapped l.file pos (pos + b.length) d
  rw [hbytes] at hmapped
  refine ⟨?_, fun scratch => ?_, ?_⟩
  · unfold AppendLog.readRecordAt
    rw [hsize]
    dsimp only
    rcases mappedRecord_cases l pos b.length with hm | hm <;> rw [hm] <;> dsimp only
    · obtain ⟨scratch', hfile⟩ := hfile []
      rw [Disk.exec_bind_eq hfile]
      rfl
    · rw [Disk.exec_bind_eq hmapped, hvalue]
      rfl
  · unfold AppendLog.readRecordAtInto
    rw [hsize]
    dsimp only
    rcases mappedRecord_cases l pos b.length with hm | hm <;> rw [hm] <;> dsimp only
    · exact hfile scratch
    · rw [Disk.exec_bind_eq hmapped, hvalue]
      exact ⟨_, rfl⟩
  · unfold AppendLog.readRecordAndExtensionsAt
    rw [hsize]
    dsimp only
    rcases mappedRecord_cases l pos b.length with hm | hm <;> rw [hm] <;> dsimp only
    · rw [Disk.exec_orElse_ok hread, hboth]
      rfl
    · rw [Disk.exec_bind_eq hmapped, hboth]
      rfl

/-- The `n` bytes at `lo` lie between the length and the checksum of the record. -/
def AppendLog.Placed.Hashed (p : AppendLog.Placed) (lo n : ℕ) : Prop :=
  p.recordOffset + 4 ≤ lo ∧ lo + n + 4 ≤ p.recordOffset + p.storedSize

/-- The `n` bytes at `lo` lie in the checksum of the record. -/
def AppendLog.Placed.InChecksum (p : AppendLog.Placed) (lo n : ℕ) : Prop :=
  p.recordOffset + p.storedSize ≤ lo + 4 ∧ lo + n ≤ p.recordOffset + p.storedSize

section
variable {calls : List AppendArgs} {ps : List AppendLog.Placed} {l l' : AppendLog} {d d' : Disk} {p : AppendLog.Placed}

/-- **Localised corruption is detected.** Of a log written by `Append` calls, at most four consecutive bytes
of one record are changed, behind its length. `Open` reports the log as corrupt and leaves it as it is,
and so does every read of the record. -/
theorem damage_detected (hfresh : LogImage d l currentHeader ([] : List (Rec logVersion)))
    (hcalls : Disk.exec (l.appendAll calls) d = ((.ok ps, l'), d')) (hp : p ∈ ps) {lo : ℕ} {y b : Bytes}
    (hshort : y.length ≤ 4) (hin : p.Hashed lo y.length ∨ p.InChecksum lo y.length)
    (hb : b = writeAt (d'.files l'.file.inode).content lo y) (hne : b ≠ (d'.files l'.file.inode).content) :
    (∀ (path : Path) (options : Options) (d0 : Disk) (i : ℕ), options.Accepted path → d0.Sound → LockFree d0 path →
      recoveredMain d0.dir path = some i → (d0.files i).content = b → FoundCorrupt d0 path options i) ∧
    ∃ e : Err, e.is .corruptedData = true ∧ ∀ (d0 : Disk) (l0 : AppendLog), l0.file.isOpen = true →
      (d0.files l0.file.inode).content = b → Unreadable d0 l0 p.recordOffset p.storedSize e := by
  obtain ⟨pre, post, x, hcontent, rfl⟩ := appended_split hfresh hcalls hp
  obtain ⟨r, m, hacc, hbytes, -⟩ := x.raw (by decide)
  have hlen := r.bytes_length
  have hfront : (currentHeader ++ concat pre).length = logHeaderSize + (concat pre).length := by
    rw [List.length_append, currentHeader_length]
  have hregion : (logHeaderSize + (concat pre).length ≤ lo) ∧ ((4 ≤ lo - (logHeaderSize + (concat pre).length) ∧
      lo - (logHeaderSize + (concat pre).length) + y.length ≤ r.bytes.length - 4) ∨
      (r.bytes.length - 4 ≤ lo - (logHeaderSize + (concat pre).length) ∧
        lo - (logHeaderSize + (concat pre).length) + y.length ≤ r.bytes.length)) := by
    simp only [AppendLog.Placed.Hashed, AppendLog.Placed.InChecksum, Rec.placement, hbytes] at hin
    omega
  obtain ⟨hlo, hregion⟩ := hregion
  obtain ⟨k, rfl⟩ := Nat.exists_eq_add_of_le hlo
  rw [Nat.add_sub_cancel_left] at hregion
  -- the damage stays inside the record
  have hdamage : b = currentHeader ++ concat pre ++ writeAt r.bytes k y ++ concat post := by
    rw [hb, hcontent, hbytes, ← hfront, writeAt_mid _ _ _ _ (by omega)]
  have hne' : writeAt r.bytes k y ≠ r.bytes := by
    intro heq
    rw [hdamage, heq, hcontent, hbytes] at hne
    exact hne rfl
  obtain ⟨body, sum, hframe, hbody, hsum, hcrc⟩ := r.damaged hshort hregion hne'
  have hlt : body.length + 4 < 256 ^ 4 := by
    rw [hbody]
    exact hacc.fits.body_lt
  have hlength : (frame body sum).length = r.bytes.length := by
    rw [← hframe, writeAt_length]
    omega
  rw [hframe] at hdamage
  refine ⟨?_, .detail .corruptedData "checksum mismatch", rfl, ?_⟩
  · intro path options d0 i hacc0 hs hfree hmain hfile
    rw [hdamage, List.append_assoc, List.append_assoc] at hfile
    rw [foundCorrupt_iff hacc0 hs hfree hmain hfile, corrupt_concat]
    obtain ⟨e, he, heof⟩ := readRecordFrom_mismatch hsum hlt hcrc (logHeaderSize + (concat pre).length) (concat post)
    exact corrupt_of_error he heof
  · intro d0 l0 hopen hfile
    have hsize : checkStoredSize (frame body sum).length = .ok () := by
      rw [hlength]
      exact hacc.stored.1
    have hslice : slice (d0.files l0.file.inode).content (logHeaderSize + (concat pre).length)
        (logHeaderSize + (concat pre).length + (frame body sum).length) = frame body sum := by
      rw [hfile, hdamage, ← hfront]
      exact slice_mid _ _ _
    have hfits : logHeaderSize + (concat pre).length + (frame body sum).length ≤
        (d0.files l0.file.inode).content.length := by
      rw [hfile, hdamage, ← hfront]
      simp only [List.length_append]
      omega
    have hunreadable := unreadable_of_invalid hopen hsize hslice hfits (validateStoredRecord_mismatch hsum hlt hcrc)
    rw [hlength, ← hbytes] at hunreadable
    exact hunreadable

end

theorem oneFileLog_image : LogImage (oneFile currentHeader) (oneFileLog currentHeader) currentHeader
    ([] : List (Rec logVersion)) :=
  ⟨rfl, rfl, currentHeader_length, rfl, currentHeader_length⟩

/-- A record of one byte under a key of one byte. -/
def smallArgs (k v : UInt8) : AppendArgs := ⟨[k], [v], false, ∅, []⟩

theorem smallArgs_limits (k v : UInt8) : appendLimits [k] [v] ∅ [] = .ok [0, 0, 0, 0] := rfl

theorem exec_append_small {d : Disk} {l : AppendLog} {recs : List (Rec logVersion)}
    (h : LogImage d l currentHeader recs)
    (hro : l.unknownReadOnly = 0) (k v : UInt8) :
    ∃ l' d', Disk.exec (l.append [k] [v] false ∅ []) d = ((.ok ⟨l.writePos + 25, 1, l.writePos, 30⟩, l'), d') ∧
      l'.unknownReadOnly = 0 ∧ LogImage d' l' currentHeader (recs ++ [appendRec (smallArgs_limits k v) false]) := by
  obtain ⟨l', d', hexec, -, hsame, himage⟩ := exec_append_image h hro (smallArgs_limits k v) false
  exact ⟨l', d', hexec, by rw [hsame.unknownReadOnly, hro], himage⟩

theorem damage_detected_one : ∃ (d' : Disk) (l' : AppendLog) (ps : List AppendLog.Placed),
    Disk.exec ((oneFileLog currentHeader).appendAll [smallArgs 1 2]) (oneFile currentHeader) = ((.ok ps, l'), d') ∧
      ∃ p ∈ ps, ∃ e : Err, e.is .corruptedData = true ∧
        Unreadable (oneFile (writeAt (d'.files l'.file.inode).content 20 [7])) (oneFileLog []) p.recordOffset
          p.storedSize
          e := by
  obtain ⟨l', d', happ, -, himage⟩ := exec_append_small oneFileLog_image rfl 1 2
  have hexec : Disk.exec ((oneFileLog currentHeader).appendAll [smallArgs 1 2]) (oneFile currentHeader) =
      ((.ok [⟨41, 1, 16, 30⟩], l'), d') := by
    rw [AppendLog.appendAll]
    refine (Disk.exec_orElseState_ok happ).trans ?_
    rfl
  have hne : writeAt (d'.files l'.file.inode).content 20 [7] ≠ (d'.files l'.file.inode).content := by
    rw [himage.content]
    change writeAt (currentHeader ++ ((appendRaw [1] [0, 0, 0, 0] [2] [] false).bytes ++ [])) 20 [7] ≠
      currentHeader ++ ((appendRaw [1] [0, 0, 0, 0] [2] [] false).bytes ++ [])
    decide +kernel
  obtain ⟨e, he, hreads⟩ := (damage_detected oneFileLog_image hexec List.mem_cons_self (by decide)
    (.inl ⟨by decide, by decide⟩) rfl hne).2
  exact ⟨d', l', _, hexec, _, List.mem_cons_self, e, he, hreads _ _ rfl rfl⟩

/-! ## A damaged length -/

/-- The length at the front of `b` is found out, of a record whose fields take `known` bytes: it is too
short for the fields or too long for an extension area; or it ends inside the file, and there the
checksum does not match, or the extension area is not framed, or what comes next is corrupt. -/
def LengthCaught (pos known : ℕ) (b : Bytes) : Prop :=
  let length := leNat (b.take 4)
  length < known ∨ known + maxExtensionsSize < length ∨
    (length + 4 ≤ b.length ∧
      (crcChecksum (slice b 4 length) ≠ leNat (slice b length (length + 4)) ∨
        validateExtensions (slice b known length) ≠ .ok () ∨ Corrupt (pos + (length + 4)) (b.drop (length + 4))))

/-- **A record behind another length is corrupt exactly if the length is caught.** -/
theorem corrupt_relength {r : RawRecord} {m : Attributes} (h : r.Accepted m) {b4 : Bytes} (hb4 : b4.length = 4)
    (rest : Bytes) (pos : ℕ) : Corrupt pos (r.relength b4 rest) ↔ LengthCaught pos r.known (r.relength b4 rest) := by
  have htake : (r.relength b4 rest).take 4 = b4 := List.take_left' hb4
  have hlength : (r.relength b4 rest).length = r.known + rest.length := by
    have hf := h.fits.fixed_length
    simp only [RawRecord.relength, RawRecord.known, List.length_append]
    omega
  unfold LengthCaught
  dsimp only
  rw [htake, hlength]
  rcases readRecordFrom_fields h.fits hb4 rest pos with ⟨e, he, heof, hout⟩ | ⟨hlo, hhi, hcut⟩
  · exact iff_of_true (corrupt_of_error he heof) (by omega)
  by_cases hshort : rest.length < leNat b4 - r.known + 4
  · obtain ⟨e, he, heof⟩ := hcut hshort
    exact iff_of_false (not_corrupt_of_cut (.inr ⟨e, he, heof⟩)) (by omega)
  obtain ⟨ext, sum, t, rfl, hext, hsum⟩ : ∃ ext sum t, rest = ext ++ (sum ++ t) ∧ ext.length = leNat b4 - r.known ∧
      sum.length = 4 := by
    refine ⟨rest.take (leNat b4 - r.known), (rest.drop (leNat b4 - r.known)).take 4,
      (rest.drop (leNat b4 - r.known)).drop 4, ?_, ?_, ?_⟩
    · rw [List.take_append_drop, List.take_append_drop]
    · rw [List.length_take]
      omega
    · rw [List.length_take, List.length_drop]
      omega
  have hf := h.fits.fixed_length
  have hn : leNat b4 = r.known + ext.length := by omega
  have hbody : (r.fixed ++ r.key ++ r.attributes ++ r.value ++ ext).length + 4 = leNat b4 := by
    rw [hn]
    simp only [RawRecord.known, List.length_append]
    omega
  have e1 : slice (r.relength b4 (ext ++ (sum ++ t))) 4 (leNat b4) =
      r.fixed ++ r.key ++ r.attributes ++ r.value ++ ext :=
    slice_at (p := 0) (a := b4) (t := sum ++ t) (by simp [RawRecord.relength]) (by omega) (by omega)
  have e2 : slice (r.relength b4 (ext ++ (sum ++ t))) (leNat b4) (leNat b4 + 4) = sum :=
    slice_at (p := 0) (a := b4 ++ (r.fixed ++ r.key ++ r.attributes ++ r.value ++ ext)) (t := t)
      (by simp [RawRecord.relength]) (by rw [List.length_append]; omega) (by omega)
  have e3 : slice (r.relength b4 (ext ++ (sum ++ t))) r.known (leNat b4) = ext :=
    slice_at (p := 0) (a := b4 ++ r.fixed ++ r.key ++ r.attributes ++ r.value) (t := sum ++ t)
      (by simp [RawRecord.relength]) (by simp only [RawRecord.known, List.length_append]; omega) hn
  have hlast : r.relength b4 (ext ++ (sum ++ t)) =
      b4 ++ (r.fixed ++ r.key ++ r.attributes ++ r.value ++ ext) ++ sum ++ t := by
    simp only [RawRecord.relength, List.append_assoc]
  have hfront : (b4 ++ (r.fixed ++ r.key ++ r.attributes ++ r.value ++ ext) ++ sum).length = leNat b4 + 4 := by
    rw [List.length_append, List.length_append, hsum, hb4]
    omega
  have e4 : (r.relength b4 (ext ++ (sum ++ t))).drop (leNat b4 + 4) = t := by
    rw [hlast]
    exact List.drop_left' hfront
  have hfit : leNat b4 + 4 ≤ r.known + (ext ++ (sum ++ t)).length := by
    rw [List.length_append, List.length_append]
    omega
  rw [e1, e2, e3, e4, or_iff_right (by omega), or_iff_right (by omega), and_iff_right hfit]
  rcases readRecordFrom_relength h.fits hb4 _ pos rfl hsum hn (by omega) with ⟨hcrc, e, he, heof⟩ |
    ⟨hcrc, hfits, hbytes⟩
  · exact iff_of_true (corrupt_of_error he heof) (.inl hcrc)
  rw [or_iff_right (not_not.mpr hcrc), hbytes]
  cases hframed : validateExtensions ext with
  | error e =>
    have hread := readRecordFrom_fits hfits pos t
    rw [hframed] at hread
    refine iff_of_true (corrupt_of_error hread ?_) (.inl (by simp))
    exact validateExtensionsFrom_error hframed
  | ok u =>
    have hacc : ({ r with extensions := ext } : RawRecord).Accepted m := ⟨hfits, hframed, h.decoded⟩
    have hone := corrupt_concat pos [Rec.ofRaw (by decide) _ m hacc] t
    have hsize : ({ r with extensions := ext } : RawRecord).bytes.length = leNat b4 + 4 := by
      rw [RawRecord.bytes_length, ← hbody]
      rfl
    rw [concat_cons, concat_nil, List.append_nil] at hone
    rw [show u = () from rfl, or_iff_right (by simp), ← hsize]
    exact hone

theorem RawRecord.bytes_eq_relength (r : RawRecord) (t : Bytes) : r.bytes ++ t =
    r.relength (leBytes 4 (r.body.length + 4)) (r.extensions ++ (leBytes 4 (crcChecksum r.body) ++ t)) :=
  r.bytes_split t

/-- **When a damaged length is found.** One byte of the length of a record is changed, in a log written by
`Append` calls: `Open` reports the log as corrupt and leaves it as it is, exactly if the length is
caught. -/
theorem length_damage_iff {calls : List AppendArgs} {ps : List AppendLog.Placed} {l l' : AppendLog} {d d' : Disk}
    {p : AppendLog.Placed} (hfresh : LogImage d l currentHeader ([] : List (Rec logVersion)))
    (hcalls : Disk.exec (l.appendAll calls) d = ((.ok ps, l'), d')) (hp : p ∈ ps) {k : ℕ} (hk : k < 4) {c : UInt8}
    {b : Bytes} (hb : b = writeAt (d'.files l'.file.inode).content (p.recordOffset + k) [c]) {path : Path}
    {options : Options} {d0 : Disk} {i : ℕ} (hacc : options.Accepted path) (hs : d0.Sound) (hfree : LockFree d0 path)
    (hmain : recoveredMain d0.dir path = some i) (hfile : (d0.files i).content = b) :
    FoundCorrupt d0 path options i ↔
      LengthCaught p.recordOffset (p.offset + p.size - p.recordOffset) (b.drop p.recordOffset) := by
  obtain ⟨pre, post, x, hcontent, rfl⟩ := appended_split hfresh hcalls hp
  obtain ⟨r, m, haccepted, hbytes, hknown⟩ := x.raw (by decide)
  have hfront : (currentHeader ++ concat pre).length = logHeaderSize + (concat pre).length := by
    rw [List.length_append, currentHeader_length]
  obtain ⟨b4, hb4⟩ : ∃ b4, b4 = writeAt (leBytes 4 (r.body.length + 4)) k [c] := ⟨_, rfl⟩
  have hlength : b4.length = 4 := by
    rw [hb4, writeAt_length, leBytes_length, List.length_singleton]
    omega
  have hdamage : b = currentHeader ++ concat pre ++
      r.relength b4 (r.extensions ++ (leBytes 4 (crcChecksum r.body) ++ concat post)) := by
    have hfit : k + [c].length ≤ (leBytes 4 (r.body.length + 4)).length := by
      rw [leBytes_length]
      exact hk
    have hmid := writeAt_mid (currentHeader ++ concat pre) (leBytes 4 (r.body.length + 4))
      (r.fixed ++ (r.key ++ (r.attributes ++ (r.value ++ (r.extensions ++
        (leBytes 4 (crcChecksum r.body) ++ concat post))))))
      [c] hfit
    rw [hfront, ← hb4] at hmid
    rw [hb, hcontent, hbytes, List.append_assoc, r.bytes_eq_relength]
    simp only [RawRecord.relength, ← List.append_assoc] at hmid ⊢
    exact hmid
  have hdrop : b.drop (logHeaderSize + (concat pre).length) =
      r.relength b4 (r.extensions ++ (leBytes 4 (crcChecksum r.body) ++ concat post)) := by
    rw [hdamage]
    exact List.drop_left' hfront
  rw [hdamage, List.append_assoc] at hfile
  rw [foundCorrupt_iff hacc hs hfree hmain hfile, corrupt_concat, corrupt_relength haccepted hlength, ← hdrop, ← hknown]
  have hfields : (Rec.placement (logHeaderSize + (concat pre).length, x)).offset +
      (Rec.placement (logHeaderSize + (concat pre).length, x)).size -
      (Rec.placement (logHeaderSize + (concat pre).length, x)).recordOffset = x.valueAt + x.value.length := by
    simp only [Rec.placement]
    omega
  rw [hfields]
  rfl

/-- Two records of one byte each, and a file with one byte of the first length changed. -/
theorem exec_appendAll_two : ∃ (l' : AppendLog) (d' : Disk),
    Disk.exec ((oneFileLog currentHeader).appendAll [smallArgs 1 2, smallArgs 3 4]) (oneFile currentHeader) =
      ((.ok [⟨41, 1, 16, 30⟩, ⟨71, 1, 46, 30⟩], l'), d') ∧
    (d'.files l'.file.inode).content = currentHeader ++ ((appendRaw [1] [0, 0, 0, 0] [2] [] false).bytes ++
      (appendRaw [3] [0, 0, 0, 0] [4] [] false).bytes) := by
  obtain ⟨l1, d1, happ1, hro1, himage1⟩ := exec_append_small oneFileLog_image rfl 1 2
  obtain ⟨l2, d2, happ2, -, himage2⟩ := exec_append_small himage1 hro1 3 4
  refine ⟨l2, d2, ?_, ?_⟩
  · have hsecond : Disk.exec (l1.appendAll [smallArgs 3 4]) d1 = ((.ok [⟨71, 1, 46, 30⟩], l2), d2) := by
      rw [himage1.writePos] at happ2
      rw [AppendLog.appendAll]
      refine (Disk.exec_orElseState_ok happ2).trans ?_
      rfl
    rw [AppendLog.appendAll]
    refine (Disk.exec_orElseState_ok happ1).trans ?_
    refine (Disk.exec_orElseState_ok hsecond).trans ?_
    rfl
  · rw [himage2.content]
    rfl

theorem length_damage_caught : ∃ (l' : AppendLog) (d' : Disk) (ps : List AppendLog.Placed),
    Disk.exec ((oneFileLog currentHeader).appendAll [smallArgs 1 2, smallArgs 3 4]) (oneFile currentHeader) =
      ((.ok ps, l'), d') ∧
    FoundCorrupt (logDisk (writeAt (d'.files l'.file.inode).content 16 [7])) "db" .zero 0 := by
  obtain ⟨l', d', hexec, hcontent⟩ := exec_appendAll_two
  have ho := logDisk_openable (writeAt (d'.files l'.file.inode).content 16 [7])
  refine ⟨l', d', _, hexec, (length_damage_iff oneFileLog_image hexec List.mem_cons_self (k := 0) (c := 7)
    (by decide) rfl
    (zero_accepted (by decide)) ho.sound ho.lockFree rfl rfl).mpr (.inl ?_)⟩
  rw [hcontent]
  decide +kernel

/-- **A damaged length swallows the log.** The second byte of the length of the first of two records is
changed from 0 to 1. `Open` succeeds, and neither record is left. -/
theorem length_damage_swallows : ∃ (l' : AppendLog) (d' : Disk) (s : Store) (d1 : Disk),
    Disk.exec ((oneFileLog currentHeader).appendAll [smallArgs 1 2, smallArgs 3 4]) (oneFile currentHeader) =
      ((.ok [⟨41, 1, 16, 30⟩, ⟨71, 1, 46, 30⟩], l'), d') ∧
    writeAt (d'.files l'.file.inode).content 17 [1] ≠ (d'.files l'.file.inode).content ∧
    Disk.exec (openStore "db" .zero) (logDisk (writeAt (d'.files l'.file.inode).content 17 [1])) = (.ok s, d1) ∧
    Serves d1 s "db" [] := by
  obtain ⟨l', d', hexec, hcontent⟩ := exec_appendAll_two
  have ho := logDisk_openable (writeAt (d'.files l'.file.inode).content 17 [1])
  obtain ⟨r, hr⟩ : ∃ r, r = appendRaw [1] [0, 0, 0, 0] [2] [] false := ⟨_, rfl⟩
  have hfits : r.Fits := by
    rw [hr]
    exact (appendLimits_ok (smallArgs_limits 1 2) false).2.fits
  obtain ⟨rest, hrest⟩ : ∃ rest,
      rest = leBytes 4 (crcChecksum r.body) ++ (appendRaw [3] [0, 0, 0, 0] [4] [] false).bytes :=
    ⟨_, rfl⟩
  have hdamage : writeAt (d'.files l'.file.inode).content 17 [1] = currentHeader ++ r.relength [26, 1, 0, 0] rest := by
    rw [hcontent, hrest, hr]
    decide +kernel
  have hcut : Cut logVersion (logHeaderSize + (concat ([] : List (Rec logVersion))).length)
      (r.relength [26, 1, 0, 0] rest) := by
    have hfour : ([26, 1, 0, 0] : Bytes).length = 4 := rfl
    rcases readRecordFrom_fields hfits hfour rest 16 with ⟨e, he, heof, hout⟩ | ⟨-, -, hcut⟩
    · refine absurd ?_ hout
      rw [hr]
      decide
    · exact .inr (hcut (by rw [hrest, hr]; decide +kernel))
  have hmain : (logDisk (writeAt (d'.files l'.file.inode).content 17 [1])).bytesAt "db" =
      some (currentHeader ++ concat ([] : List (Rec logVersion)) ++ r.relength [26, 1, 0, 0] rest) := by
    rw [hdamage]
    rfl
  obtain ⟨s, d1, hopen, hserves, -⟩ := exec_openStore_cut (zero_accepted (by decide)) ho hmain hcut
  refine ⟨l', d', s, d1, hexec, ?_, hopen, hserves⟩
  rw [hcontent]
  decide +kernel

end AppendStore
