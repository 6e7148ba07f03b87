import AppendStore.Log.Rec

/-! # The scan of a log file

Whatever the bytes after the header are, they are the bytes of a list of records followed by a rest
at which the reader stops (`parse_exists`), and the scan delivers exactly those records, each at its
position, and then ends as the rest says (`scan_parse`). `exec_iterate_*` are the four outcomes of
`Iterate`.
-/

namespace AppendStore
open Library
set_option autoImplicit false

section
variable {version : ℕ}

/-- The bytes of records one after the other. -/
def concat (recs : List (Rec version)) : Bytes := recs.flatMap Rec.bytes

@[simp] theorem concat_nil : concat ([] : List (Rec version)) = [] := rfl

theorem concat_cons (r : Rec version) (recs : List (Rec version)) :
    concat (r :: recs) = r.bytes ++ concat recs := rfl

theorem concat_append (xs ys : List (Rec version)) : concat (xs ++ ys) = concat xs ++ concat ys := by
  simp [concat]

theorem concat_length (recs : List (Rec version)) :
    (concat recs).length = (recs.map fun r => r.bytes.length).sum := by
  simp [concat, List.length_flatMap]

theorem length_le_concat (recs : List (Rec version)) : recs.length ≤ (concat recs).length := by
  induction recs with
  | nil => simp
  | cons r recs ih =>
    have hr := r.nonempty
    rw [concat_cons, List.length_append, List.length_cons]
    omega

/-- The records with their positions. -/
def placed : ℕ → List (Rec version) → List (ℕ × Rec version)
  | _, [] => []
  | pos, r :: recs => (pos, r) :: placed (pos + r.bytes.length) recs

@[simp] theorem placed_nil (pos : ℕ) : placed pos ([] : List (Rec version)) = [] := rfl

theorem placed_append (pos : ℕ) (xs ys : List (Rec version)) :
    placed pos (xs ++ ys) = placed pos xs ++ placed (pos + (concat xs).length) ys := by
  induction xs generalizing pos with
  | nil => simp
  | cons r xs ih =>
    rw [List.cons_append, placed, placed, ih, concat_cons, List.length_append, List.cons_append,
      Nat.add_assoc]

/-! ## Where the reader stops -/

/-- A rest at which the reader stops: nothing, or bytes it refuses. -/
def Stops (version pos : ℕ) (tail : Bytes) : Prop :=
  tail = [] ∨ ∃ e, AppendLog.readRecord version pos tail = .error e

/-- What the scan makes of bytes that the reader refuses. -/
def stopAt (pos : ℕ) (e : Err) : AppendLog.ScanEnd :=
  if e.isEOF then .torn pos e else .failed (.printed .corruptedData s!" at offset {pos}" e)

theorem parse_exists (version pos : ℕ) (rest : Bytes) :
    ∃ (recs : List (Rec version)) (tail : Bytes), rest = concat recs ++ tail ∧
      Stops version (pos + (concat recs).length) tail := by
  induction hn : rest.length using Nat.strong_induction_on generalizing rest pos with
  | _ n ih =>
    cases hread : AppendLog.readRecord version pos rest with
    | error e => exact ⟨[], rest, rfl, .inr ⟨e, by simpa using hread⟩⟩
    | ok out =>
      obtain ⟨out, t⟩ := out
      obtain ⟨r, hs, -⟩ := readRecord_ok hread
      have hlt : t.length < n := by
        have hr := r.nonempty
        rw [← hn, hs, List.length_append]
        omega
      obtain ⟨recs, tail, ht, hstop⟩ := ih t.length hlt (pos + r.bytes.length) t rfl
      refine ⟨r :: recs, tail, ?_, ?_⟩
      · rw [hs, ht, concat_cons, List.append_assoc]
      · rwa [concat_cons, List.length_append, ← Nat.add_assoc]

theorem Stops.ne {pos : ℕ} {tail : Bytes} (h : Stops version pos tail) (r : Rec version) (t : Bytes) :
    tail ≠ r.bytes ++ t := by
  rintro rfl
  rcases h with hnil | ⟨e, he⟩
  · have hr := r.nonempty
    rw [(List.append_eq_nil_iff.mp hnil).1] at hr
    exact Nat.lt_irrefl 0 hr
  · rw [r.scanned] at he
    cases he

/-- There is one way to read a file. -/
theorem parse_unique {recs recs' : List (Rec version)} {tail tail' : Bytes} {pos pos' : ℕ}
    (h : concat recs ++ tail = concat recs' ++ tail') (hs : Stops version pos tail)
    (hs' : Stops version pos' tail') : recs = recs' ∧ tail = tail' := by
  induction recs generalizing recs' with
  | nil =>
    cases recs' with
    | nil => exact ⟨rfl, h⟩
    | cons r' recs' =>
      rw [concat_cons, List.append_assoc] at h
      exact absurd h (hs.ne r' _)
  | cons r recs ih =>
    cases recs' with
    | nil =>
      rw [concat_cons, List.append_assoc] at h
      exact absurd h.symm (hs'.ne r _)
    | cons r' recs' =>
      rw [concat_cons, concat_cons, List.append_assoc, List.append_assoc] at h
      obtain ⟨rfl, hrest⟩ := Rec.front_unique h
      obtain ⟨rfl, rfl⟩ := ih hrest
      exact ⟨rfl, rfl⟩

theorem concat_injective {recs recs' : List (Rec version)} (h : concat recs = concat recs') :
    recs = recs' := by
  have hnil : Stops version 0 [] := .inl rfl
  refine (parse_unique ?_ hnil hnil).1
  rw [List.append_nil, List.append_nil, h]

/-! ## What the callback sees -/

/-- A callback on records, up to the first error. -/
def deliver {σ : Type} (fn : LogRecord → σ → Except Err σ) : List LogRecord → σ → σ × Option Err
  | [], s => (s, none)
  | r :: rs, s =>
    match fn r s with
    | .error e => (s, some e)
    | .ok s => deliver fn rs s

/-- The callback that keeps what it is given. -/
def collect (r : LogRecord) (acc : List LogRecord) : Except Err (List LogRecord) := .ok (acc ++ [r])

theorem collect_eq (r : LogRecord) (acc : List LogRecord) : collect r acc = .ok (acc ++ [r]) := rfl

theorem deliver_collect (recs acc : List LogRecord) : deliver collect recs acc = (acc ++ recs, none) := by
  induction recs generalizing acc with
  | nil => rw [deliver, List.append_nil]
  | cons r recs ih => exact (ih (acc ++ [r])).trans (by rw [List.append_assoc, List.singleton_append])

/-- What the loop gives after a delivery: the callback's error, or what it makes of the rest. -/
def afterDelivery {σ : Type} (next : σ → σ × AppendLog.ScanEnd) : σ × Option Err → σ × AppendLog.ScanEnd
  | (s, some e) => (s, .failed e)
  | (s, none) => next s

def entries {version : ℕ} (pos : ℕ) (recs : List (Rec version)) : List LogRecord :=
  (placed pos recs).map fun x => x.2.entry x.1

section
variable {σ : Type} {fn : LogRecord → σ → Except Err σ} {f : LogRecord → σ → σ}

/-- The callback on records at their positions. -/
def foldPlaced (f : LogRecord → σ → σ) (xs : List (ℕ × Rec version)) (s : σ) : σ :=
  xs.foldl (fun s x => f (x.2.entry x.1) s) s

theorem foldPlaced_append (f : LogRecord → σ → σ) (xs ys : List (ℕ × Rec version)) (s : σ) :
    foldPlaced f (xs ++ ys) s = foldPlaced f ys (foldPlaced f xs s) := by
  simp [foldPlaced]

/-- The scan calls back on the records in front of the rest at which it stops. -/
theorem scan_deliver (recs : List (Rec version)) (tail : Bytes) (fuel pos fileSize : ℕ) (s : σ)
    (hsize : fileSize = pos + (concat recs).length + tail.length) (hfuel : recs.length ≤ fuel) :
    AppendLog.scan version fileSize fn fuel pos (concat recs ++ tail) s =
      afterDelivery (AppendLog.scan version fileSize fn (fuel - recs.length) (pos + (concat recs).length) tail)
        (deliver fn (entries pos recs) s) := by
  induction recs generalizing fuel pos s with
  | nil => rfl
  | cons r recs ih =>
    obtain ⟨fuel, rfl⟩ : ∃ k, fuel = k + 1 := Nat.exists_eq_succ_of_ne_zero (by
      rw [List.length_cons] at hfuel
      omega)
    have hr := r.nonempty
    rw [List.length_cons] at hfuel
    rw [concat_cons, List.length_append] at hsize
    have hentries : entries pos (r :: recs) = r.entry pos :: entries (pos + r.bytes.length) recs := rfl
    rw [concat_cons, List.append_assoc, AppendLog.scan, if_pos (by omega), r.scanned, hentries, deliver]
    dsimp only
    rw [if_neg (by omega)]
    have hcall : fn ⟨r.key, pos + r.valueAt, r.value.length, pos, r.bytes.length, r.deleted, r.attributes⟩ s =
        fn (r.entry pos) s := rfl
    rw [hcall]
    cases fn (r.entry pos) s with
    | error e => rfl
    | ok s' =>
      dsimp only
      rw [ih fuel (pos + r.bytes.length) s' (by omega) (by omega), List.length_append, List.length_cons,
        Nat.succ_sub_succ, Nat.add_assoc]

variable (hfn : ∀ r s, fn r s = .ok (f r s))
include hfn

/-- A callback that never fails takes every record. -/
theorem deliver_total (pos : ℕ) (recs : List (Rec version)) (s : σ) :
    deliver fn (entries pos recs) s = (foldPlaced f (placed pos recs) s, none) := by
  induction recs generalizing pos s with
  | nil => rfl
  | cons r recs ih =>
    have hentries : entries pos (r :: recs) = r.entry pos :: entries (pos + r.bytes.length) recs := rfl
    rw [hentries, deliver, hfn]
    exact ih (pos + r.bytes.length) (f (r.entry pos) s)

theorem scan_concat (recs : List (Rec version)) (tail : Bytes) (fuel pos fileSize : ℕ) (s : σ)
    (hsize : fileSize = pos + (concat recs).length + tail.length) (hfuel : recs.length ≤ fuel) :
    AppendLog.scan version fileSize fn fuel pos (concat recs ++ tail) s =
      AppendLog.scan version fileSize fn (fuel - recs.length) (pos + (concat recs).length) tail
        (foldPlaced f (placed pos recs) s) := by
  rw [scan_deliver recs tail fuel pos fileSize s hsize hfuel, deliver_total hfn]
  rfl

theorem scan_complete (recs : List (Rec version)) (fuel pos fileSize : ℕ) (s : σ)
    (hsize : fileSize = pos + (concat recs).length) (hfuel : recs.length ≤ fuel) :
    AppendLog.scan version fileSize fn fuel pos (concat recs) s =
      (foldPlaced f (placed pos recs) s, .complete) := by
  have h := scan_concat hfn recs [] fuel pos fileSize s (by simpa using hsize) hfuel
  rw [List.append_nil] at h
  rw [h]
  cases fuel - recs.length with
  | zero => rfl
  | succ k => rw [AppendLog.scan, if_neg (by omega)]

theorem scan_stops (recs : List (Rec version)) {tail : Bytes} (ht : tail ≠ []) (fuel pos fileSize : ℕ) (s : σ)
    (hsize : fileSize = pos + (concat recs).length + tail.length) (hfuel : recs.length < fuel) {e : Err}
    (he : AppendLog.readRecord version (pos + (concat recs).length) tail = .error e) :
    AppendLog.scan version fileSize fn fuel pos (concat recs ++ tail) s =
      (foldPlaced f (placed pos recs) s, stopAt (pos + (concat recs).length) e) := by
  rw [scan_concat hfn recs tail fuel pos fileSize s hsize (Nat.le_of_lt hfuel)]
  obtain ⟨k, hk⟩ : ∃ k, fuel - recs.length = k + 1 := Nat.exists_eq_succ_of_ne_zero (by omega)
  have hpos := List.length_pos_of_ne_nil ht
  rw [hk, AppendLog.scan, if_pos (by omega), he, stopAt]
  dsimp only
  split <;> rfl

/-! ## The outcomes of `Iterate` -/

variable {d : Disk} {l : AppendLog} (hopen : l.file.isOpen = true)
  (hpos : l.writePos = (d.files l.file.inode).content.length) (hver : l.version = version)
  {recs : List (Rec version)} {tail : Bytes} {header : Bytes} (hheader : header.length = logHeaderSize)
  (hcontent : (d.files l.file.inode).content = header ++ concat recs ++ tail) (s : σ)
omit hfn
include hopen hpos hver hheader hcontent

theorem exec_iterate : Disk.exec (l.iterate fn s) d =
    Disk.exec (l.finishScan (AppendLog.scan version (logHeaderSize + (concat recs).length + tail.length) fn
      ((concat recs ++ tail).length + 1) logHeaderSize (concat recs ++ tail) s)) d := by
  have hdrop : (d.files l.file.inode).content.drop logHeaderSize = concat recs ++ tail := by
    rw [hcontent, List.append_assoc, ← hheader, List.drop_left]
  have hsize : l.writePos = logHeaderSize + (concat recs).length + tail.length := by
    rw [hpos, hcontent, List.length_append, List.length_append, hheader]
  unfold AppendLog.iterate
  rw [Disk.exec_orElse_ok (Disk.exec_seek hopen d _), Disk.exec_orElse_ok (Disk.exec_readFrom hopen d _),
    hdrop, hsize, hver]

include hfn

theorem exec_iterate_complete (ht : tail = []) :
    Disk.exec (l.iterate fn s) d = (((.ok (), l), foldPlaced f (placed logHeaderSize recs) s), d) := by
  have hlen := length_le_concat recs
  rw [exec_iterate hopen hpos hver hheader hcontent, ht, List.append_nil,
    List.length_nil, Nat.add_zero, scan_complete hfn recs _ _ _ s rfl (by omega)]
  rfl

theorem exec_iterate_torn (ht : tail ≠ []) {e : Err}
    (he : AppendLog.readRecord version (logHeaderSize + (concat recs).length) tail = .error e)
    (heof : e.isEOF = true) (hro : l.unknownReadOnly = 0) :
    Disk.exec (l.iterate fn s) d =
      (((.ok (), { l with writePos := logHeaderSize + (concat recs).length }),
        foldPlaced f (placed logHeaderSize recs) s),
        d.cut l.file.inode (logHeaderSize + (concat recs).length)) := by
  have hlen := length_le_concat recs
  have htrunc := Disk.exec_truncate hopen d (logHeaderSize + (concat recs).length) (by
    rw [hcontent, List.length_append, List.length_append, hheader]
    omega)
  rw [exec_iterate hopen hpos hver hheader hcontent,
    scan_stops hfn recs ht _ _ _ s rfl (by rw [List.length_append]; omega) he, stopAt, if_pos heof,
    AppendLog.finishScan, if_pos hro, Disk.exec_orElse_ok htrunc]
  rfl

theorem exec_iterate_readOnly (ht : tail ≠ []) {e : Err}
    (he : AppendLog.readRecord version (logHeaderSize + (concat recs).length) tail = .error e)
    (heof : e.isEOF = true) (hro : l.unknownReadOnly ≠ 0) :
    Disk.exec (l.iterate fn s) d =
      (((.ok (), { l with writePos := logHeaderSize + (concat recs).length }),
        foldPlaced f (placed logHeaderSize recs) s), d) := by
  have hlen := length_le_concat recs
  rw [exec_iterate hopen hpos hver hheader hcontent,
    scan_stops hfn recs ht _ _ _ s rfl (by rw [List.length_append]; omega) he, stopAt, if_pos heof,
    AppendLog.finishScan, if_neg hro]
  rfl

theorem exec_iterate_failed (ht : tail ≠ []) {e : Err}
    (he : AppendLog.readRecord version (logHeaderSize + (concat recs).length) tail = .error e)
    (heof : e.isEOF = false) :
    Disk.exec (l.iterate fn s) d =
      (((.error (.printed .corruptedData s!" at offset {logHeaderSize + (concat recs).length}" e), l),
        foldPlaced f (placed logHeaderSize recs) s), d) := by
  have hlen := length_le_concat recs
  rw [exec_iterate hopen hpos hver hheader hcontent,
    scan_stops hfn recs ht _ _ _ s rfl (by rw [List.length_append]; omega) he, stopAt,
    if_neg (by rw [heof]; exact Bool.false_ne_true)]
  rfl

end

end

end AppendStore
