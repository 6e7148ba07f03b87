import AppendStore.Log.RoundTrip
import AppendStore.Store.Opening

/-! # What the scan discards

The scan cuts a file off, or stops before its end, where the reader reports the end of the file. That
is meant to be an incomplete record. It is one unless a complete record, with a matching checksum and
well framed extensions, has an attribute block that ends inside an entry: the attribute decoder then
returns the same error as a read past the end of the file (`RawRecord.ShortAttributes`).
-/

namespace AppendStore
open Library
set_option autoImplicit false

section
variable {σ : Type} {fn : LogRecord → σ → Except Err σ} {f : LogRecord → σ → σ} {d : Disk} {l : AppendLog}
  {path : Path} {i : ℕ} {h : Header}

/-- Whatever `Iterate` discards is an incomplete record, and on a complete record that is refused it
reports corruption and leaves the disk as it is. -/
def OnlyTornDiscarded (l : AppendLog) (fn : LogRecord → σ → Except Err σ) (s : σ) (d : Disk) (b : Bytes) : Prop :=
  ∀ r l' s' d', Disk.exec (l.iterate fn s) d = (((r, l'), s'), d') →
    (r = .ok () → l'.writePos < b.length → Incomplete (b.drop l'.writePos)) ∧
    ∀ (recs : List (Rec l.version)) (tail : Bytes), b = b.take logHeaderSize ++ concat recs ++ tail →
      tail ≠ [] → ¬ Incomplete tail →
      (∃ e, AppendLog.readRecord l.version (logHeaderSize + (concat recs).length) tail = .error e) →
      ∃ e, r = .error e ∧ e.is .corruptedData = true ∧ d' = d

/-- `Iterate` cuts the file where it says that the next record goes, or leaves it alone if unknown features
make the log read-only. -/
def CutsAtWritePos (l : AppendLog) (fn : LogRecord → σ → Except Err σ) (s : σ) (d : Disk) (i : ℕ) : Prop :=
  ∀ l' s' d', Disk.exec (l.iterate fn s) d = (((.ok (), l'), s'), d') →
    l'.writePos ≤ (d.files i).content.length ∧
    (d'.files i).content =
      if l.unknownReadOnly = 0 then (d.files i).content.take l'.writePos else (d.files i).content

/-- The file has, after accepted records, a complete record with a short attribute block. -/
def HasShortAttributes (version : ℕ) (b : Bytes) : Prop :=
  ∃ (recs : List (Rec version)) (r : RawRecord) (t : Bytes) (e : Err),
    b = b.take logHeaderSize ++ concat recs ++ (r.bytes ++ t) ∧ r.ShortAttributes e

/-- The file is a header, records, and a rest at which the scan stops. -/
structure Parsed {version : ℕ} (b : Bytes) (recs : List (Rec version)) (tail : Bytes) : Prop where
  content : b = b.take logHeaderSize ++ concat recs ++ tail
  stops : Stops version (logHeaderSize + (concat recs).length) tail

/-- The ends of an `Iterate` that stops after `recs` at `tail`: the result, the log and the disk. -/
inductive IterateEnd (l : AppendLog) (d : Disk) (i : ℕ) (recs : List (Rec l.version)) (tail : Bytes) :
    Except Err Unit → AppendLog → Disk → Prop
  | complete {l' : AppendLog} : tail = [] → l'.writePos = (d.files i).content.length →
      IterateEnd l d i recs tail (.ok ()) l' d
  | torn {e : Err} {l' : AppendLog} {d' : Disk} :
      AppendLog.readRecord l.version (logHeaderSize + (concat recs).length) tail = .error e → e.isEOF = true →
      l'.writePos = logHeaderSize + (concat recs).length →
      ((d'.files i).content =
        if l.unknownReadOnly = 0 then (d.files i).content.take l'.writePos else (d.files i).content) →
      IterateEnd l d i recs tail (.ok ()) l' d'
  | failed {e : Err} {l' : AppendLog} :
      AppendLog.readRecord l.version (logHeaderSize + (concat recs).length) tail = .error e → e.isEOF = false →
      IterateEnd l d i recs tail
        (.error (.printed .corruptedData s!" at offset {logHeaderSize + (concat recs).length}" e)) l' d

section
variable {version : ℕ} {b : Bytes} {recs recs' : List (Rec version)} {tail tail' : Bytes}

theorem exists_parsed (version : ℕ) (b : Bytes) : ∃ (recs : List (Rec version)) (tail : Bytes), Parsed b recs tail := by
  obtain ⟨recs, tail, hrest, hstop⟩ := parse_exists version logHeaderSize (b.drop logHeaderSize)
  refine ⟨recs, tail, ?_, hstop⟩
  rw [List.append_assoc, ← hrest, List.take_append_drop]

/-- There is one way to take a file apart. -/
theorem Parsed.unique (h : Parsed b recs tail) (h' : Parsed b recs' tail') : tail = tail' := by
  have hsame : b.take logHeaderSize ++ (concat recs ++ tail) = b.take logHeaderSize ++ (concat recs' ++ tail') := by
    rw [← List.append_assoc, ← List.append_assoc, ← h.content, ← h'.content]
  exact (parse_unique (List.append_cancel_left hsame) h.stops h'.stops).2

variable (hb : (b.take logHeaderSize).length = logHeaderSize)
include hb

theorem Parsed.length (h : Parsed b recs tail) : b.length = logHeaderSize + (concat recs).length + tail.length := by
  have hsum := congrArg List.length h.content
  rwa [List.length_append, List.length_append, hb] at hsum

theorem Parsed.drop (h : Parsed b recs tail) : b.drop (logHeaderSize + (concat recs).length) = tail := by
  nth_rewrite 1 [h.content]
  exact List.drop_left' (by rw [List.length_append, hb])

end

variable (hfn : ∀ r s, fn r s = .ok (f r s)) (ho : Opened l path i h (d.files i).content.length)
  (hh : readHeaderOf (d.files i).content = .ok h) (hv : 4 ≤ h.version)

theorem readHeaderOf_take {b : Bytes} (hb : readHeaderOf b = .ok h) :
    (b.take logHeaderSize).length = logHeaderSize := by
  rw [List.length_take, Nat.min_eq_left (readHeaderOf_ok hb).1]

include hfn ho hh

/-- How the scan of a file ends. -/
theorem iterate_ends {recs : List (Rec l.version)} {tail : Bytes} (hp : Parsed (d.files i).content recs tail) {s s' : σ}
    {r : Except Err Unit} {l' : AppendLog} {d' : Disk}
    (hexec : Disk.exec (l.iterate fn s) d = (((r, l'), s'), d')) : IterateEnd l d i recs tail r l' d' := by
  have hopen : l.file.isOpen = true := by rw [ho.file]
  have hpos : l.writePos = (d.files l.file.inode).content.length := by rw [ho.writePos, ho.file]
  have hheader := readHeaderOf_take hh
  have hcontent : (d.files l.file.inode).content =
      (d.files i).content.take logHeaderSize ++ concat recs ++ tail := by
    rw [ho.file]
    exact hp.content
  by_cases htail : tail = []
  · rw [exec_iterate_complete hfn hopen hpos rfl hheader hcontent s htail] at hexec
    cases hexec
    exact .complete htail ho.writePos
  obtain ⟨e, he⟩ := hp.stops.resolve_left htail
  by_cases heof : e.isEOF = true
  · by_cases hro : l.unknownReadOnly = 0
    · rw [exec_iterate_torn hfn hopen hpos rfl hheader hcontent s htail he heof hro] at hexec
      cases hexec
      refine .torn he heof rfl ?_
      rw [if_pos hro, ho.file]
      exact congrArg File.content (Function.update_self i _ d.files)
    · rw [exec_iterate_readOnly hfn hopen hpos rfl hheader hcontent s htail he heof hro] at hexec
      cases hexec
      exact .torn he heof rfl (if_neg hro).symm
  · rw [exec_iterate_failed hfn hopen hpos rfl hheader hcontent s htail he (by simpa using heof)] at hexec
    cases hexec
    exact .failed he (by simpa using heof)

theorem cutsAtWritePos (s : σ) : CutsAtWritePos l fn s d i := by
  obtain ⟨recs, tail, hp⟩ := exists_parsed l.version (d.files i).content
  intro l' s' d' hexec
  cases iterate_ends hfn ho hh hp hexec with
  | complete _ hpos =>
    rw [hpos, List.take_length, ite_self]
    exact ⟨le_rfl, rfl⟩
  | torn _ _ hpos hcut =>
    refine ⟨?_, hcut⟩
    rw [hpos, hp.length (readHeaderOf_take hh)]
    omega

include hv

/-- A short attribute block makes the scan discard a complete record. -/
theorem short_discarded (s : σ) (hshort : HasShortAttributes l.version (d.files i).content) :
    ¬ OnlyTornDiscarded l fn s d (d.files i).content := by
  obtain ⟨recs, r, t, e, hcontent, hr⟩ := hshort
  have hread : AppendLog.readRecord l.version (logHeaderSize + (concat recs).length) (r.bytes ++ t) =
      .error (.wrap "decode attributes" e) := by
    rw [AppendLog.readRecord, if_pos (by rw [ho.version]; exact hv), readRecordFrom_shortAttributes hr]
  have hp : Parsed (d.files i).content recs (r.bytes ++ t) := ⟨hcontent, .inr ⟨_, hread⟩⟩
  have hlen := hp.length (readHeaderOf_take hh)
  have hbytes := r.bytes_length
  rw [List.length_append] at hlen
  intro hall
  rcases hexec : Disk.exec (l.iterate fn s) d with ⟨⟨⟨res, l'⟩, s'⟩, d'⟩
  cases iterate_ends hfn ho hh hp hexec with
  | complete htail _ =>
    have hnil := congrArg List.length htail
    rw [List.length_append, List.length_nil] at hnil
    omega
  | torn _ _ hpos _ =>
    have hinc := (hall _ _ _ _ hexec).1 rfl (by rw [hpos]; omega)
    rw [hpos, hp.drop (readHeaderOf_take hh)] at hinc
    exact hr.fits.complete t hinc
  | failed he heof =>
    have hwrapped : (Err.wrap "decode attributes" e).isEOF = true := hr.eof
    rw [Except.error.inj (hread.symm.trans he), heof] at hwrapped
    cases hwrapped

/-- **Only a torn tail is discarded, except for short attribute blocks.** What is kept is the file up to
the position at which the next record goes. -/
theorem only_torn_discarded_iff (s : σ) :
    (OnlyTornDiscarded l fn s d (d.files i).content ↔ ¬ HasShortAttributes l.version (d.files i).content) ∧
      CutsAtWritePos l fn s d i := by
  refine ⟨⟨fun hall hshort => short_discarded hfn ho hh hv s hshort hall, ?_⟩, cutsAtWritePos hfn ho hh s⟩
  intro hshort
  obtain ⟨recs, tail, hp⟩ := exists_parsed l.version (d.files i).content
  -- what stops the scan with the error of a short read is incomplete, or a short attribute block
  have hinc : ∀ e, AppendLog.readRecord l.version (logHeaderSize + (concat recs).length) tail = .error e →
      e.isEOF = true → Incomplete tail := by
    intro e he heof
    rw [AppendLog.readRecord, if_pos (by rw [ho.version]; exact hv)] at he
    rcases readRecordFrom_eof he heof with hinc | ⟨r, t, e', hr, rfl⟩
    · exact hinc
    · exact absurd ⟨recs, r, t, e', hp.content, hr⟩ hshort
  intro r l' s' d' hexec
  cases iterate_ends hfn ho hh hp hexec with
  | complete htail hpos =>
    refine ⟨fun _ hlt => absurd hlt (by rw [hpos]; exact Nat.lt_irrefl _), ?_⟩
    intro recs' tail' hcontent hne _ herr
    exact absurd ((Parsed.unique ⟨hcontent, .inr herr⟩ hp).trans htail) hne
  | torn he heof hpos _ =>
    refine ⟨fun _ _ => ?_, ?_⟩
    · rw [hpos, hp.drop (readHeaderOf_take hh)]
      exact hinc _ he heof
    · intro recs' tail' hcontent _ hcomplete herr
      rw [Parsed.unique ⟨hcontent, .inr herr⟩ hp] at hcomplete
      exact absurd (hinc _ he heof) hcomplete
  | failed =>
    refine ⟨fun hok => absurd hok (by simp), ?_⟩
    intro _ _ _ _ _ _
    exact ⟨_, rfl, rfl, rfl⟩

end

/-- A record with the attribute count one and no attribute. -/
def shortRecord : RawRecord := ⟨0, [0, 0, 0], [], [1, 0, 0, 0], [], []⟩

theorem shortRecord_short : shortRecord.ShortAttributes (.sentinel .unexpectedEOF) :=
  ⟨⟨rfl, by decide, by decide, by decide, by decide⟩, rfl, rfl, rfl⟩

/-- A log with one record and the first bytes of a second one. -/
def tornLog : Bytes := currentHeader ++ concat [shortRec 1 2] ++ [7, 0, 0]

theorem tornLog_take : tornLog.take logHeaderSize = currentHeader := by
  rw [tornLog, List.append_assoc, List.take_left' currentHeader_length]

/-- A record whose attribute block is short would have to begin at the torn bytes, and is longer. -/
theorem tornLog_not_short : ¬ HasShortAttributes logVersion tornLog := by
  rintro ⟨recs, r, t, e, hcontent, hr⟩
  have hp : Parsed tornLog [shortRec 1 2] [7, 0, 0] := ⟨by rw [tornLog_take, tornLog], .inr ⟨_, rfl⟩⟩
  have hlen := congrArg List.length (hp.unique ⟨hcontent, .inr ⟨_, readRecordFrom_shortAttributes hr _ t⟩⟩)
  rw [List.length_append, r.bytes_length] at hlen
  simp only [List.length_cons, List.length_nil] at hlen
  omega

theorem only_torn_discarded_iff_torn :
    OnlyTornDiscarded (oneFileLog tornLog) Store.recoverRecord (newIndex [], newLRUCache 1) (oneFile tornLog)
      tornLog ∧
    ∃ l' s' d', Disk.exec ((oneFileLog tornLog).iterate Store.recoverRecord (newIndex [], newLRUCache 1))
        (oneFile tornLog) = (((.ok (), l'), s'), d') ∧
      l'.writePos = 46 ∧ (d'.files 0).content = currentHeader ++ (shortRec 1 2).bytes := by
  have hh : readHeaderOf tornLog = .ok ⟨logVersion, 0, 0⟩ := by
    rw [tornLog, List.append_assoc, readHeaderOf_current]
  obtain ⟨hiff, hcuts⟩ := only_torn_discarded_iff recoverRecord_eq (oneFileLog_opened tornLog) hh (by decide)
    (newIndex [], newLRUCache 1)
  have hexec := exec_iterate_torn (l := oneFileLog tornLog) (d := oneFile tornLog) recoverRecord_eq rfl rfl rfl
    currentHeader_length rfl (newIndex [], newLRUCache 1) (by decide) (rfl : AppendLog.readRecord logVersion
      (logHeaderSize + (concat [shortRec 1 2]).length) [7, 0, 0] = .error _) rfl rfl
  exact ⟨hiff.mpr tornLog_not_short, _, _, _, hexec, rfl, (hcuts _ _ _ hexec).2.trans rfl⟩

/-- **The scan of `Open` can discard a complete record.** -/
theorem complete_record_discarded : ¬ ∀ (d : Disk) (l : AppendLog) (path : Path) (i : ℕ) (h : Header),
    Opened l path i h (d.files i).content.length → readHeaderOf (d.files i).content = .ok h → 4 ≤ h.version →
    OnlyTornDiscarded l Store.recoverRecord (newIndex [], newLRUCache 1) d (d.files i).content := by
  intro hall
  have hh := readHeaderOf_current shortRecord.bytes
  refine short_discarded recoverRecord_eq (oneFileLog_opened (currentHeader ++ shortRecord.bytes)) hh (by decide) _ ?_
    (hall _ _ _ _ _ (oneFileLog_opened (currentHeader ++ shortRecord.bytes)) hh (by decide))
  refine ⟨[], shortRecord, [], _, ?_, shortRecord_short⟩
  change currentHeader ++ shortRecord.bytes = (currentHeader ++ shortRecord.bytes).take logHeaderSize ++ concat [] ++
    (shortRecord.bytes ++ [])
  rw [List.take_left' currentHeader_length, concat_nil, List.append_nil, List.append_nil]

end AppendStore
