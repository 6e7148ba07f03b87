import AppendStore.Log.RoundTrip
import AppendStore.Store.Refinement

/-! # Crashes that keep a front part of the log

A crash leaves some front part of the log file. What `Open` recovers from it is the state after the
longest initial run of mutations whose records are wholly there (`open_cut`): every record is either
complete or reported as the end of the file, wherever the cut falls (`take_concat`).

`History` are the runs of mutations, crashes and recoveries, with every state in between that is still
in the log. With a sync after each mutation a crash keeps the synced bytes, so nothing acknowledged is
lost (`Lives`).
-/

namespace AppendStore
open Library
set_option autoImplicit false

/-! ## A front part of a log -/

section
variable {version : ℕ}

/-- A front part of records is some whole records and then an incomplete one. -/
theorem take_concat (recs : List (Rec version)) (n : ℕ) :
    ∃ done rest tail, recs = done ++ rest ∧ (concat recs).take n = concat done ++ tail ∧
      (concat done).length ≤ n ∧ (∀ pos, Cut version pos tail) ∧
      ∀ r rest', rest = r :: rest' → n < (concat done).length + r.bytes.length := by
  induction recs generalizing n with
  | nil => exact ⟨[], [], [], rfl, by simp, Nat.zero_le _, fun _ => .inl rfl, fun r _ h => by cases h⟩
  | cons r recs ih =>
    by_cases hle : r.bytes.length ≤ n
    · obtain ⟨done, rest, tail, hrecs, htake, hlen, hcut, hnext⟩ := ih (n - r.bytes.length)
      refine ⟨r :: done, rest, tail, by rw [hrecs, List.cons_append], ?_, ?_, hcut, ?_⟩
      · rw [concat_cons, List.take_append, List.take_of_length_le hle, htake, concat_cons, List.append_assoc]
      · rw [concat_cons, List.length_append]
        omega
      · intro r' rest' hrest
        have h := hnext r' rest' hrest
        rw [concat_cons, List.length_append]
        omega
    · refine ⟨[], r :: recs, r.bytes.take n, rfl, ?_, Nat.zero_le _, ?_, ?_⟩
      · rw [concat_cons, List.take_append_of_le_length (by omega), concat_nil, List.nil_append]
      · intro pos
        refine .inr (r.torn pos (r.bytes.take n) (r.bytes.drop n) (List.take_append_drop n _).symm ?_)
        rw [ne_eq, List.drop_eq_nil_iff]
        omega
      · intro r' rest' h
        cases h
        rw [concat_nil, List.length_nil]
        omega

end

/-- The log at a path can be opened: no artifact is beside it and nothing holds the lock. -/
structure Openable (d : Disk) (path : Path) : Prop where
  noArtifacts : ∀ q ∈ artifacts path, d.dir q = none
  lockFree : LockFree d path
  sound : d.Sound

/-- A directory with one file, the log `db`. -/
def logDisk (b : Bytes) : Disk :=
  { oneFile b with names := fun q => if q = "db" then some 0 else none, next := 1 }

theorem logDisk_dir (b : Bytes) (q : Path) : (logDisk b).dir q = if q = "db" then some 0 else none := rfl

theorem logDisk_openable (b : Bytes) : Openable (logDisk b) "db" := by
  refine ⟨fun q hq => ?_, fun i hi => ?_, fun q i hq => ?_, fun q q' i hq hq' => ?_⟩
  · rw [logDisk_dir, if_neg]
    rintro rfl
    exact path_not_mem_artifacts "db" hq
  · rfl
  · rw [logDisk_dir] at hq
    split at hq
    · cases hq
      exact Nat.one_pos
    · cases hq
  · rw [logDisk_dir] at hq hq'
    split at hq
    · split at hq'
      · rename_i h h'
        rw [h, h']
      · cases hq'
    · cases hq

/-- The disk `d'` has the first `n` bytes of the log of `d`. -/
structure CutAt (path : Path) (n : ℕ) (d d' : Disk) : Prop extends Openable d' path where
  main : d'.bytesAt path = (d.bytesAt path).map (List.take n)

section
variable {path : Path} {options : Options} {d d' : Disk} {s : Store} {recs : List (Rec logVersion)} {n : ℕ}

theorem Backed.bytesAt {version : ℕ} {header : Bytes} {recs : List (Rec version)}
    (h : Backed d s path header recs) : d.bytesAt path = some (header ++ concat recs) := by
  rw [Disk.bytesAt, h.dir, Option.map_some, h.image.content]

/-- The log has one list of records. -/
theorem Backed.records_unique {version : ℕ} {header : Bytes} {recs recs' : List (Rec version)}
    (h : Backed d s path header recs) (h' : Backed d s path header recs') : recs = recs' := by
  have hbytes := h.bytesAt
  rw [h'.bytesAt, Option.some.injEq] at hbytes
  exact concat_injective (List.append_cancel_left hbytes.symm)

theorem bytesAt_some {b : Bytes} (h : d.bytesAt path = some b) :
    ∃ i, d.dir path = some i ∧ (d.files i).content = b :=
  Option.map_eq_some_iff.mp h

/-- `Open` on a log of the current version that may end in an incomplete record. -/
theorem exec_openStore_cut (hacc : options.Accepted path) (ho : Openable d path) {tail : Bytes}
    (hmain : d.bytesAt path = some (currentHeader ++ concat recs ++ tail))
    (hcut : Cut logVersion (logHeaderSize + (concat recs).length) tail) :
    ∃ s d', Disk.exec (openStore path options) d = (.ok s, d') ∧ Serves d' s path recs ∧
      s.options = options.withDefaults ∧
      ∀ i, d.dir path = some i → s.log.file.inode = i ∧
        ((d.files i).synced = (d.files i).content → (d'.files i).synced = (d'.files i).content) := by
  obtain ⟨i, hdir, hcontent⟩ := bytesAt_some hmain
  have hrec : recoveredMain d.dir path = some i := by
    rw [recoveredMain, hdir]
    rfl
  have hr := reads_current hcut
  rw [← hcontent] at hr
  obtain ⟨s, d', hexec, hserves, hoptions, hfile⟩ := exec_openStore_reads hacc ho.sound ho.lockFree hrec hr rfl
    (fun hlt => absurd hlt (Nat.lt_irrefl _))
  rw [migrated_current] at hserves
  refine ⟨s, d', hexec, hserves, hoptions, ?_⟩
  intro j hj
  rw [hdir, Option.some.injEq] at hj
  subst hj
  exact hfile rfl

/-- **`Open` of a front part of a log** serves the records that are wholly there. -/
theorem open_cut (hacc : options.Accepted path)
    (hbytes : d.bytesAt path = some (currentHeader ++ concat recs)) (hn : logHeaderSize ≤ n)
    (hcut : CutAt path n d d') :
    ∃ done rest s' d2, recs = done ++ rest ∧ logHeaderSize + (concat done).length ≤ n ∧
      (∀ r rest', rest = r :: rest' → n < logHeaderSize + (concat (done ++ [r])).length) ∧
      Disk.exec (openStore path options) d' = (.ok s', d2) ∧ Serves d2 s' path done ∧
      s'.options = options.withDefaults ∧
      ∀ i, d'.dir path = some i → s'.log.file.inode = i ∧
        ((d'.files i).synced = (d'.files i).content → (d2.files i).synced = (d2.files i).content) := by
  obtain ⟨done, rest, tail, hrecs, htake, hlen, htail, hnext⟩ := take_concat recs (n - logHeaderSize)
  have hbytes : d'.bytesAt path = some (currentHeader ++ concat done ++ tail) := by
    rw [hcut.main, hbytes, Option.map_some, List.take_append, currentHeader_length,
      List.take_of_length_le (by rw [currentHeader_length]; exact hn), htake, List.append_assoc]
  obtain ⟨s', d2, hexec, hserves, hoptions, hfile⟩ := exec_openStore_cut hacc hcut.toOpenable hbytes (htail _)
  refine ⟨done, rest, s', d2, hrecs, by omega, ?_, hexec, hserves, hoptions, hfile⟩
  intro r rest' hrest
  have h' := hnext r rest' hrest
  rw [concat_append, concat_cons, concat_nil, List.append_nil, List.length_append]
  omega

end

/-! ## Runs of mutations with crashes in between -/

/-- The calls that write to the log. -/
inductive Mutation
  | put (key value : Bytes) (options : Option AttributeRange)
  | delete (key : Bytes)
  deriving DecidableEq

/-- The mutation as a call. -/
def Mutation.call : Mutation → Call
  | .put key value options => .put key value options
  | .delete key => .delete key

/-- The mutation as a program. -/
def Mutation.program (m : Mutation) (s : Store) : FileProg (Except Err Unit × Store) :=
  match m with
  | .put key value options => s.put key value options
  | .delete key => s.delete key

/-- The record a mutation writes. -/
def Mutation.bytes : Mutation → Bytes
  | .put key value options =>
    match appendLimits key value (options.getD ∅) [] with
    | .ok ab => (appendRaw key ab value [] false).bytes
    | .error _ => []
  | .delete key => (appendRaw key (attributeBlock []) [] [] true).bytes

/-- The mutation is not refused before its write. -/
def Mutation.Writes (m : Mutation) (s : Store) : Prop :=
  match m with
  | .put key value options => ∃ ab, appendLimits key value (options.getD ∅) [] = .ok ab
  | .delete key => (s.index.get key).isSome = true

instance (m : Mutation) (s : Store) : Decidable (m.Writes s) :=
  match m with
  | .put key value options =>
    match h : appendLimits key value (options.getD ∅) [] with
    | .ok ab => isTrue ⟨ab, h⟩
    | .error _ => isFalse fun ⟨_, hok⟩ => nomatch h.symm.trans hok
  | .delete key => inferInstanceAs (Decidable ((s.index.get key).isSome = true))

/-- Two sessions in the same state: the index with every offset and attribute and the secondary
indexes, the log file, the write position, and the values. -/
structure SameState (path : Path) (x y : Session) : Prop where
  index : x.store.index.Same y.store.index
  file : x.disk.bytesAt path = y.disk.bytesAt path
  writePos : x.store.log.writePos = y.store.log.writePos
  values : ∀ key, (Disk.exec (x.store.get key) x.disk).1.1 = (Disk.exec (y.store.get key) y.disk).1.1

/-- `History path options past x`: a run of acknowledged mutations and of crashes ends in `x`, and
`past` are the earlier states that are still in the log, from the empty one on. A crash that keeps the
first `n` bytes leaves those whose log ends within them. -/
inductive History (path : Path) (options : Options) : List Session → Session → Prop
  | opened {d : Disk} {s : Store} {d' : Disk} : d.Sound → LockFree d path → recoveredMain d.dir path = none →
      Disk.exec (openStore path options) d = (.ok s, d') → History path options [] ⟨s, d'⟩
  | acknowledged {past : List Session} {x : Session} (m : Mutation) : History path options past x →
      (x.call path m.call).1 = .done (.ok ()) → History path options (past ++ [x]) (x.call path m.call).2
  | recovered {past : List Session} {x : Session} {n : ℕ} {d s d'} {pre : List Session} {y : Session}
      {post : List Session} : History path options past x → logHeaderSize ≤ n → CutAt path n x.disk d →
      past ++ [x] = pre ++ y :: post → y.store.log.writePos ≤ n → (∀ z ∈ post, n < z.store.log.writePos) →
      Disk.exec (openStore path options) d = (.ok s, d') → History path options pre ⟨s, d'⟩

/-- The states of a history, each with the records its store serves. -/
inductive Traced (path : Path) (options : Options) : List Session → Session → List (Rec logVersion) → Prop
  | start {x : Session} : Serves x.disk x.store path [] → x.store.options = options.withDefaults →
      Traced path options [] x []
  | step {past : List Session} {x y : Session} {recs : List (Rec logVersion)} {r : Rec logVersion} :
      Traced path options past x recs → Serves y.disk y.store path (recs ++ [r]) →
      y.store.options = options.withDefaults → Traced path options (past ++ [x]) y (recs ++ [r])

section
variable {path : Path} {options : Options} {past : List Session} {x y : Session}
  {recs : List (Rec logVersion)}

theorem Traced.serves (h : Traced path options past x recs) :
    Serves x.disk x.store path recs ∧ x.store.options = options.withDefaults := by
  cases h with
  | start hs ho => exact ⟨hs, ho⟩
  | step _ hs ho => exact ⟨hs, ho⟩

/-- Every front part of the records is a state of the history. -/
theorem Traced.split (done : List (Rec logVersion)) (rest : List (Rec logVersion))
    (h : Traced path options past x (done ++ rest)) :
    ∃ pre y post, past ++ [x] = pre ++ y :: post ∧ Traced path options pre y done ∧
      ∀ z ∈ post, ∃ r l, r :: l <+: rest ∧ Serves z.disk z.store path (done ++ r :: l) := by
  induction rest using List.reverseRecOn generalizing past x with
  | nil =>
    rw [List.append_nil] at h
    exact ⟨past, x, [], rfl, h, fun z hz => absurd hz List.not_mem_nil⟩
  | append_singleton rest r ih =>
    rw [← List.append_assoc] at h
    generalize hall : done ++ rest ++ [r] = all at h
    cases h with
    | start => exact absurd hall (by simp)
    | step hprev hserves =>
      obtain ⟨hrecs, hr⟩ := List.append_inj' hall rfl
      cases hr
      subst hrecs
      obtain ⟨pre, y, post, heq, htraced, hpost⟩ := ih hprev
      refine ⟨pre, y, post ++ [x], by rw [heq, List.append_assoc, List.cons_append], htraced, ?_⟩
      intro z hz
      rcases List.mem_append.mp hz with hz | hz
      · obtain ⟨r', l, hl, hs⟩ := hpost z hz
        exact ⟨r', l, hl.trans (List.prefix_append _ _), hs⟩
      · rw [List.mem_singleton] at hz
        subst hz
        obtain ⟨r', l, hl⟩ : ∃ r' l, rest ++ [r] = r' :: l := by
          cases rest with
          | nil => exact ⟨r, [], rfl⟩
          | cons a rest => exact ⟨a, rest ++ [r], rfl⟩
        refine ⟨r', l, by rw [hl], ?_⟩
        rw [← hl, ← List.append_assoc]
        exact hserves

theorem Traced.replace (h : Traced path options past x recs) (hs : Serves y.disk y.store path recs)
    (ho : y.store.options = options.withDefaults) : Traced path options past y recs := by
  cases h with
  | start _ _ => exact .start hs ho
  | step hprev _ _ => exact .step hprev hs ho

/-- Stores that serve the same records with the same options are in the same state. -/
theorem sameState_of_serves (hx : Serves x.disk x.store path recs) (hy : Serves y.disk y.store path recs)
    (ho : x.store.options = y.store.options) : SameState path x y := by
  refine ⟨?_, by rw [hx.bytesAt, hy.bytesAt], by rw [hx.image.writePos, hy.image.writePos], ?_⟩
  · have hindex := hx.index
    rw [ho] at hindex
    exact hindex.trans hy.index.symm
  · intro key
    obtain ⟨s1, h1, -⟩ := exec_get hx key
    obtain ⟨s2, h2, -⟩ := exec_get hy key
    rw [h1, h2]

theorem call_mutation (m : Mutation) (x : Session) : x.call path m.call =
    (.done (Disk.exec (m.program x.store) x.disk).1.1,
      ⟨(Disk.exec (m.program x.store) x.disk).1.2, (Disk.exec (m.program x.store) x.disk).2⟩) := by
  cases m <;> rfl

/-- A mutation is refused before it does anything, -/
theorem program_refused {d : Disk} {s : Store} (h : Serves d s path recs) {m : Mutation} (hw : ¬ m.Writes s) :
    ∃ e, m.program s = pure (.error e, s) := by
  cases m with
  | put key value options =>
    cases hlim : appendLimits key value (options.getD ∅) [] with
    | ok ab => exact absurd ⟨ab, hlim⟩ hw
    | error e =>
      refine ⟨.wrap "failed to append to log" e, ?_⟩
      change s.put key value options = _
      unfold Store.put
      rw [h.writable]
      dsimp only
      rw [append_rejected h.image.versionEq h.unknownReadOnly hlim]
      rfl
  | delete key =>
    refine ⟨Store.keyNotFound key, ?_⟩
    change s.delete key = _
    unfold Store.delete
    rw [h.writable, Option.not_isSome_iff_eq_none.mp hw]

/-- or it adds a record. -/
theorem exec_mutation_writes {d : Disk} {s : Store} (h : Serves d s path recs) {m : Mutation}
    (hw : m.Writes s) : ∃ r s' d', Disk.exec (m.program s) d = ((.ok (), s'), d') ∧
      Mutated d d' s s' path recs r ∧ r.bytes = m.bytes := by
  cases m with
  | put key value options =>
    obtain ⟨ab, hlim⟩ := hw
    obtain ⟨s', d', hexec, hmut⟩ := exec_put h hlim
    refine ⟨_, s', d', hexec, hmut, ?_⟩
    rw [Mutation.bytes, hlim]
    rfl
  | delete key =>
    have hmem : key ∈ (contents recs).map Prod.fst := by
      by_contra habs
      have hnone := h.get_none.mpr habs
      rw [Mutation.Writes, hnone] at hw
      exact absurd hw Bool.false_ne_true
    obtain ⟨⟨k, v⟩, hkv, rfl⟩ := List.mem_map.mp hmem
    obtain ⟨s', d', hexec, hmut⟩ := exec_delete h (contents_keyLimit hkv) hmem
    exact ⟨_, s', d', hexec, hmut, rfl⟩

theorem exec_mutation {d : Disk} {s : Store} (h : Serves d s path recs) (m : Mutation) :
    (∃ e, Disk.exec (m.program s) d = ((.error e, s), d)) ∨
      ∃ r s' d', Disk.exec (m.program s) d = ((.ok (), s'), d') ∧ Mutated d d' s s' path recs r := by
  by_cases hw : m.Writes s
  · obtain ⟨r, s', d', hexec, hmut, -⟩ := exec_mutation_writes h hw
    exact .inr ⟨r, s', d', hexec, hmut⟩
  · obtain ⟨e, he⟩ := program_refused h hw
    exact .inl ⟨e, by rw [he]; rfl⟩

/-- There is one place where a list changes from yes to no for good. -/
theorem split_unique {α : Type} {P : α → Prop} {pre pre' post post' : List α} {a a' : α}
    (h : pre ++ a :: post = pre' ++ a' :: post') (ha : P a) (ha' : P a') (hpost : ∀ z ∈ post, ¬ P z)
    (hpost' : ∀ z ∈ post', ¬ P z) : pre = pre' ∧ a = a' := by
  induction pre generalizing pre' with
  | nil =>
    cases pre' with
    | nil => exact ⟨rfl, (List.cons.inj h).1⟩
    | cons b pre' =>
      have hmem : a' ∈ post := by
        rw [(List.cons.inj h).2]
        simp
      exact absurd ha' (hpost a' hmem)
  | cons b pre ih =>
    cases pre' with
    | nil =>
      have hmem : a ∈ post' := by
        rw [← (List.cons.inj h).2]
        simp
      exact absurd ha (hpost' a hmem)
    | cons b' pre' =>
      obtain ⟨rfl, htail⟩ := List.cons.inj h
      obtain ⟨rfl, rfl⟩ := ih htail
      exact ⟨rfl, rfl⟩

/-- What `Open` finds in a history after a crash. -/
theorem Traced.open_cut (hacc : options.Accepted path) (h : Traced path options past x recs) {n : ℕ} {d : Disk}
    (hn : logHeaderSize ≤ n) (hcut : CutAt path n x.disk d) :
    ∃ s d' pre y post done, Disk.exec (openStore path options) d = (.ok s, d') ∧
      past ++ [x] = pre ++ y :: post ∧ y.store.log.writePos ≤ n ∧
      (∀ z ∈ post, n < z.store.log.writePos) ∧ Traced path options pre y done ∧
      Traced path options pre ⟨s, d'⟩ done ∧ done <+: recs := by
  obtain ⟨done, rest, s, d', rfl, hle, hnext, hexec, hserves, hoptions, -⟩ :=
    AppendStore.open_cut hacc h.serves.1.bytesAt hn hcut
  obtain ⟨pre, y, post, hsplit, htraced, hpost⟩ := h.split done rest
  refine ⟨s, d', pre, y, post, done, hexec, hsplit, ?_, ?_, htraced, htraced.replace hserves hoptions,
    List.prefix_append _ _⟩
  · rw [htraced.serves.1.image.writePos]
    exact hle
  · intro z hz
    obtain ⟨r, l, ⟨t, ht⟩, hs⟩ := hpost z hz
    have hlt := hnext r (l ++ t) ht.symm
    rw [hs.image.writePos, List.append_cons, concat_append, List.length_append]
    omega

theorem History.traced (hacc : options.Accepted path) (h : History path options past x) :
    ∃ recs, Traced path options past x recs := by
  induction h with
  | @opened d s d' hs hfree hnew hopen =>
    obtain ⟨s1, d1, hopen', hserves, hoptions⟩ := exec_openStore_fresh hacc hs hfree (by
      intro i hi
      rw [hnew] at hi
      cases hi)
    rw [hopen] at hopen'
    cases hopen'
    exact ⟨[], .start hserves hoptions⟩
  | @acknowledged past x m _ hok ih =>
    obtain ⟨recs, htraced⟩ := ih
    obtain ⟨hserves, hoptions⟩ := htraced.serves
    rw [call_mutation] at hok ⊢
    rcases exec_mutation hserves m with ⟨e, hexec⟩ | ⟨r, s', d', hexec, hmut⟩
    · rw [hexec] at hok
      cases hok
    · rw [hexec]
      exact ⟨recs ++ [r], .step htraced hmut.serves (by rw [hmut.options, hoptions])⟩
  | @recovered past x n d s d' pre y post _ hn hcut hsplit hle hlt hopen ih =>
    obtain ⟨recs, htraced⟩ := ih
    obtain ⟨s1, d1, pre', y', post', done, hopen', hsplit', hle', hlt', -, hdone, -⟩ := htraced.open_cut hacc hn hcut
    rw [hopen] at hopen'
    cases hopen'
    obtain ⟨rfl, -⟩ := split_unique (P := fun z : Session => z.store.log.writePos ≤ n) (hsplit.symm.trans hsplit')
      hle hle'
      (fun z hz => Nat.not_le.mpr (hlt z hz)) (fun z hz => Nat.not_le.mpr (hlt' z hz))
    exact ⟨done, hdone⟩

/-- A log that was closed or left by a crash as it was opens to the same state. -/
theorem Traced.open_again (hacc : options.Accepted path) (h : Traced path options past x recs) {d : Disk}
    (ho : Openable d path) (hmain : d.bytesAt path = x.disk.bytesAt path) :
    ∃ s d', Disk.exec (openStore path options) d = (.ok s, d') ∧ SameState path ⟨s, d'⟩ x := by
  obtain ⟨hserves, hoptions⟩ := h.serves
  have hcut : Cut logVersion (logHeaderSize + (concat recs).length) [] := .inl rfl
  obtain ⟨s, d', hexec, hs, hso, -⟩ := exec_openStore_cut hacc ho
    (by rw [hmain, hserves.bytesAt, List.append_nil]) hcut
  exact ⟨s, d', hexec, sameState_of_serves hs hserves (by rw [hso, hoptions])⟩

/-- The first half of the guarantee: what a crash leaves of a history. -/
theorem History.open_cut (hacc : options.Accepted path) (h : History path options past x) {n : ℕ} {d : Disk}
    (hn : logHeaderSize ≤ n) (hcut : CutAt path n x.disk d) :
    ∃ s d' pre y post, Disk.exec (openStore path options) d = (.ok s, d') ∧
      past ++ [x] = pre ++ y :: post ∧ y.store.log.writePos ≤ n ∧
      (∀ z ∈ post, n < z.store.log.writePos) ∧ SameState path ⟨s, d'⟩ y ∧
      d'.bytesAt path = (x.disk.bytesAt path).map (List.take y.store.log.writePos) ∧
      ∀ d2, Openable d2 path → d2.bytesAt path = d'.bytesAt path →
        ∃ s2 d3, Disk.exec (openStore path options) d2 = (.ok s2, d3) ∧ SameState path ⟨s2, d3⟩ ⟨s, d'⟩ := by
  obtain ⟨recs, htraced⟩ := h.traced hacc
  obtain ⟨s, d', pre, y, post, done, hexec, hsplit, hle, hlt, hy, hdone, ⟨rest, hrest⟩⟩ :=
    htraced.open_cut hacc hn hcut
  obtain ⟨hserves, hoptions⟩ := hdone.serves
  obtain ⟨hservesY, hoptionsY⟩ := hy.serves
  refine ⟨s, d', pre, y, post, hexec, hsplit, hle, hlt,
    sameState_of_serves hserves hservesY (by rw [hoptions, hoptionsY]), ?_, ?_⟩
  · rw [hserves.bytesAt, htraced.serves.1.bytesAt, hservesY.image.writePos, Option.map_some, ← hrest,
      concat_append, ← List.append_assoc, List.take_left' (by rw [List.length_append, currentHeader_length])]
  · intro d2 ho hmain
    exact hdone.open_again hacc ho hmain

/-! ## Acknowledged means durable -/

/-- A crash that keeps at least the bytes of the log as of the last sync; what it leaves is on the
disk for good. -/
def Crashed (path : Path) (d d' : Disk) : Prop :=
  ∃ n, logHeaderSize ≤ n ∧ CutAt path n d d' ∧
    (∀ i, d.dir path = some i → (d.files i).synced.length ≤ n) ∧
    ∀ i, d'.dir path = some i → (d'.files i).synced = (d'.files i).content

/-- The map after a list of mutations. -/
def mapAfter (ms : List Mutation) : KeyMap := final KeyMap.call .empty (ms.map Mutation.call)

theorem mapAfter_concat (ms : List Mutation) (m : Mutation) :
    mapAfter (ms ++ [m]) = ((mapAfter ms).call m.call).2 := by
  rw [mapAfter, List.map_append, final_append]
  rfl

/-- `Lives path options ms x`: a run of mutations in which crashes come at any instant, also while a
mutation runs, ends in `x`, and `ms` are the mutations that took effect. An acknowledged mutation is
one of them for good; one that a crash interrupted may or may not be. -/
inductive Lives (path : Path) (options : Options) : List Mutation → Session → Prop
  | opened {d : Disk} {s : Store} {d' : Disk} : d.Sound → LockFree d path → recoveredMain d.dir path = none →
      Disk.exec (openStore path options) d = (.ok s, d') → Lives path options [] ⟨s, d'⟩
  | acknowledged {ms : List Mutation} {x : Session} (m : Mutation) : Lives path options ms x →
      (x.call path m.call).1 = .done (.ok ()) → Lives path options (ms ++ [m]) (x.call path m.call).2
  | refused {ms : List Mutation} {x : Session} (m : Mutation) (e : Err) : Lives path options ms x →
      (x.call path m.call).1 = .done (.error e) → Lives path options ms (x.call path m.call).2
  | crashed {ms ms' : List Mutation} {x : Session} {m : Mutation} {t d d' : Disk} {s : Store} :
      Lives path options ms x → Prog.Visits Disk.answer (m.program x.store) x.disk t → Crashed path t d →
      Disk.exec (openStore path options) d = (.ok s, d') → (ms' = ms ∨ ms' = ms ++ [m]) →
      Refines path ⟨s, d'⟩ (mapAfter ms') → Lives path options ms' ⟨s, d'⟩

/-- The disk at an instant of a mutation: with the record or without it, and synced or not. -/
structure Midway (d t : Disk) (s : Store) (b : Bytes) : Prop where
  dir : t.dir = d.dir
  content : (t.files s.log.file.inode).content = (d.files s.log.file.inode).content ++ b
  synced : (t.files s.log.file.inode).synced = (d.files s.log.file.inode).synced ∨
    (t.files s.log.file.inode).synced = (t.files s.log.file.inode).content

theorem visits_syncMutation {d t : Disk} {s : Store} (hopen : s.log.file.isOpen = true) (context : String)
    (hv : Prog.Visits Disk.answer (s.syncMutation context) d t) : t = d ∨ t = d.syncFile s.log.file.inode := by
  unfold Store.syncMutation at hv
  split at hv
  · have hsync := exec_syncLog hopen d
    rcases Prog.visits_orElse_ok hsync hv with hv | hv
    · unfold AppendLog.sync asErr at hv
      rcases Prog.visits_orElse_ok (Disk.exec_fsync hopen d) hv with hv | hv
      · rcases Prog.visits_perform hv with rfl | rfl
        · exact .inl rfl
        · exact .inr (congrArg Prod.snd (Disk.exec_fsync hopen d))
      · exact .inr (Prog.visits_pure hv)
    · exact .inr (Prog.visits_pure hv)
  · exact .inl (Prog.visits_pure hv)

/-- The disk during a mutation that adds a record. -/
theorem Serves.visits_mutated {d t : Disk} {s : Store} (h : Serves d s path recs) {key value ab : Bytes}
    {attributes : AttributeRange} {deleted : Bool} (hlim : appendLimits key value attributes [] = .ok ab)
    (context : String) {bad : Err → AppendLog → FileProg (Except Err Unit × Store)}
    {good : AppendLog.Placed → AppendLog → FileProg (Except Err Unit × Store)} {s1 : AppendLog → Store}
    (hgood : ∀ log, good (placedAt s.log.writePos (appendRaw key ab value [] deleted)) log =
      (s1 log).syncMutation context) (hlog : ∀ log, (s1 log).log = log)
    (hv : Prog.Visits Disk.answer ((s.log.append key value deleted attributes []).orElseState bad good) d t) :
    t = d ∨ Midway d t s (appendRec hlim deleted).bytes := by
  obtain ⟨l', d1, happ, hd1, hs, himage⟩ := exec_append_image h.image h.unknownReadOnly hlim deleted
  have hmid1 : Midway d d1 s (appendRec hlim deleted).bytes := by
    rw [hd1]
    exact ⟨rfl, by simp, .inl (by simp [Disk.setContent])⟩
  have hmid2 : Midway d (d1.syncFile s.log.file.inode) s (appendRec hlim deleted).bytes :=
    ⟨hmid1.dir, by rw [Disk.content_syncFile, hmid1.content],
      .inr (by rw [Disk.synced_syncFile, Disk.content_syncFile])⟩
  rcases Prog.visits_orElseState_ok happ hv with hv | hv
  · rcases visits_append h.image.isOpen h.image.versionEq h.unknownReadOnly hlim deleted hv with rfl | ht
    · exact .inl rfl
    · rw [← h.image.length, writeAt_end] at ht
      have heq : t = d1 := by rw [ht, hd1]; rfl
      exact .inr (heq ▸ hmid1)
  · rw [hgood] at hv
    have hopen : (s1 l').log.file.isOpen = true := by rw [hlog]; exact himage.isOpen
    rcases visits_syncMutation hopen context hv with rfl | rfl
    · exact .inr hmid1
    · rw [hlog, hs.file]
      exact .inr hmid2

/-- The disk during any mutation. -/
theorem visits_mutation {d t : Disk} {s : Store} (h : Serves d s path recs) (m : Mutation)
    (hv : Prog.Visits Disk.answer (m.program s) d t) :
    t = d ∨ ∃ r s' d', Disk.exec (m.program s) d = ((.ok (), s'), d') ∧ Mutated d d' s s' path recs r ∧
      Midway d t s r.bytes := by
  cases m with
  | put key value options =>
    cases hlim : appendLimits key value (options.getD ∅) [] with
    | error e =>
      change Prog.Visits Disk.answer (s.put key value options) d t at hv
      unfold Store.put at hv
      rw [h.writable] at hv
      dsimp only at hv
      rw [append_rejected h.image.versionEq h.unknownReadOnly hlim] at hv
      exact .inl (Prog.visits_pure hv)
    | ok ab =>
      obtain ⟨s', d', hexec, hmut⟩ := exec_put h hlim
      change Prog.Visits Disk.answer (s.put key value options) d t at hv
      unfold Store.put at hv
      rw [h.writable] at hv
      rcases h.visits_mutated hlim "sync appended value" (fun _ => rfl) (fun _ => rfl) hv with rfl | hmid
      · exact .inl rfl
      · exact .inr ⟨_, s', d', hexec, hmut, hmid⟩
  | delete key =>
    change Prog.Visits Disk.answer (s.delete key) d t at hv
    unfold Store.delete at hv
    rw [h.writable] at hv
    by_cases hmem : key ∈ (contents recs).map Prod.fst
    · obtain ⟨⟨k, v⟩, hkv, rfl⟩ := List.mem_map.mp hmem
      obtain ⟨s', d', hexec, hmut⟩ := exec_delete h (contents_keyLimit hkv) hmem
      cases hget : s.index.get k with
      | none => exact absurd hmem (h.get_none.mp hget)
      | some e =>
        rw [hget] at hv
        rcases h.visits_mutated (tombstone_limits (contents_keyLimit hkv)) "sync tombstone" (fun _ => rfl)
          (fun _ => rfl) hv with rfl | hmid
        · exact .inl rfl
        · exact .inr ⟨_, s', d', hexec, hmut, hmid⟩
    · rw [h.get_none.mpr hmem] at hv
      exact .inl (Prog.visits_pure hv)

/-- A mutation has the same effect on the map. -/
theorem shows_mutated {km : KeyMap} {m : Mutation} {r : Rec logVersion} {s' : Store} {d' : Disk}
    (h : Serves x.disk x.store path recs) (hshows : km.Shows (contents recs))
    (hexec : Disk.exec (m.program x.store) x.disk = ((.ok (), s'), d'))
    (hmut : Mutated x.disk d' x.store s' path recs r) :
    (km.call m.call).2.Shows (contents (recs ++ [r])) := by
  have hacc : m.call.Accepted path := by cases m <;> trivial
  obtain ⟨-, recs', hserves', hshows'⟩ := call_refines m.call hacc ⟨recs, h, hshows⟩
  rw [call_mutation, hexec] at hserves'
  rw [← hserves'.records_unique hmut.serves]
  exact hshows'

/-- The bytes of the log are as durable as the acknowledged mutations need it. -/
def Durable (x : Session) (recs : List (Rec logVersion)) : Prop :=
  recs = [] ∨ (x.disk.files x.store.log.file.inode).synced = (x.disk.files x.store.log.file.inode).content

/-- What a crash that keeps `n` bytes leaves of records whose first part lies within them. -/
theorem done_cases {done rest : List (Rec logVersion)} {r : Rec logVersion} {n : ℕ}
    (hsplit : recs ++ [r] = done ++ rest) (hn : logHeaderSize + (concat recs).length ≤ n)
    (hnext : ∀ r' rest', rest = r' :: rest' → n < logHeaderSize + (concat (done ++ [r'])).length) :
    done = recs ∨ done = recs ++ [r] := by
  rcases List.eq_nil_or_concat rest with rfl | ⟨front, last, rfl⟩
  · rw [List.append_nil] at hsplit
    exact .inr hsplit.symm
  · rw [List.concat_eq_append, ← List.append_assoc] at hsplit
    obtain ⟨hrecs, -⟩ := List.append_inj' hsplit rfl
    cases front with
    | nil =>
      rw [List.append_nil] at hrecs
      exact .inl hrecs.symm
    | cons r' front =>
      have hlt := hnext r' (front ++ [last]) (by rw [List.concat_eq_append, List.cons_append])
      rw [hrecs, List.append_cons, concat_append, List.length_append] at hn
      omega

/-- **A crash during a mutation** leaves the store as it was before, or as the mutation makes it. -/
theorem open_crashed (hacc : options.Accepted path) (h : Serves x.disk x.store path recs)
    (hdur : Durable x recs) (m : Mutation) {t d : Disk}
    (hv : Prog.Visits Disk.answer (m.program x.store) x.disk t) (hcrash : Crashed path t d) :
    ∃ s d' recs', Disk.exec (openStore path options) d = (.ok s, d') ∧ Serves d' s path recs' ∧
      s.options = options.withDefaults ∧ Durable ⟨s, d'⟩ recs' ∧
      (recs' = recs ∨ ∃ r s1 d1, Disk.exec (m.program x.store) x.disk = ((.ok (), s1), d1) ∧
        Mutated x.disk d1 x.store s1 path recs r ∧ recs' = recs ++ [r]) := by
  obtain ⟨n, hn, hcut, hkeep, hdisk⟩ := hcrash
  have hlen : logHeaderSize + (concat recs).length = (x.disk.files x.store.log.file.inode).content.length := by
    rw [h.image.length, h.image.writePos]
  have hdurable : ∀ {s d' recs'}, (∀ i, d.dir path = some i → s.log.file.inode = i ∧
      ((d.files i).synced = (d.files i).content → (d'.files i).synced = (d'.files i).content)) →
      Durable ⟨s, d'⟩ recs' := by
    intro s d' recs' hfile
    obtain ⟨i, hi⟩ : ∃ i, d.dir path = some i := by
      have hmain := hcut.main
      cases hi : d.dir path with
      | some i => exact ⟨i, rfl⟩
      | none =>
        have hsome : (t.bytesAt path).map (List.take n) = none := by rw [← hmain, Disk.bytesAt, hi]; rfl
        have ht : t.dir path = x.disk.dir path := by
          rcases visits_mutation h m hv with rfl | ⟨r, s1, d1, -, -, hmid⟩
          · rfl
          · rw [hmid.dir]
        rw [Disk.bytesAt, ht, h.dir] at hsome
        cases hsome
    obtain ⟨rfl, hsync⟩ := hfile i hi
    exact .inr (hsync (hdisk _ hi))
  rcases visits_mutation h m hv with rfl | ⟨r, s1, d1, hexec, hmut, hmid⟩
  · have hall : logHeaderSize + (concat recs).length ≤ n := by
      rcases hdur with rfl | hsync
      · simpa using hn
      · have hk := hkeep _ h.dir
        rw [hsync] at hk
        omega
    obtain ⟨done, rest, s, d', hrecs, -, hnext, hopen, hserves, hoptions, hfile⟩ :=
      open_cut hacc h.bytesAt hn hcut
    have hdone : done = recs := by
      cases rest with
      | nil => rw [hrecs, List.append_nil]
      | cons r rest =>
        have hlt := hnext r rest rfl
        rw [hrecs, List.append_cons, concat_append, List.length_append] at hall
        omega
    subst hdone
    exact ⟨s, d', done, hopen, hserves, hoptions, hdurable hfile, .inl rfl⟩
  · have hdir : t.dir path = some x.store.log.file.inode := by rw [hmid.dir, h.dir]
    have hbytes : t.bytesAt path = some (currentHeader ++ concat (recs ++ [r])) := by
      rw [Disk.bytesAt, hdir, Option.map_some, hmid.content, h.image.content, concat_append, concat_cons,
        concat_nil, List.append_nil, List.append_assoc]
    have hall : logHeaderSize + (concat recs).length ≤ n := by
      have hk := hkeep _ hdir
      rcases hmid.synced with hsame | hfull
      · rcases hdur with rfl | hsync
        · simpa using hn
        · rw [hsame, hsync] at hk
          omega
      · rw [hfull, hmid.content, List.length_append] at hk
        omega
    obtain ⟨done, rest, s, d', hrecs, -, hnext, hopen, hserves, hoptions, hfile⟩ := open_cut hacc hbytes hn hcut
    refine ⟨s, d', done, hopen, hserves, hoptions, hdurable hfile, ?_⟩
    rcases done_cases hrecs hall hnext with rfl | rfl
    · exact .inl rfl
    · exact .inr ⟨r, s1, d1, hexec, hmut, rfl⟩

theorem withDefaults_syncInterval (options : Options) :
    options.withDefaults.syncInterval = options.syncInterval := by
  unfold Options.withDefaults
  dsimp only
  split <;> split <;> rfl

/-- The map after the mutations that took effect, and how far the log is synced. -/
theorem Lives.shows {ms : List Mutation} (hacc : options.Accepted path) (hsync : options.syncInterval = 0)
    (h : Lives path options ms x) : ∃ recs, Serves x.disk x.store path recs ∧
      (mapAfter ms).Shows (contents recs) ∧ x.store.options = options.withDefaults ∧ Durable x recs := by
  induction h with
  | @opened d s d' hs hfree hnew hopen =>
    obtain ⟨s1, d1, hopen', hserves, hoptions⟩ := exec_openStore_fresh hacc hs hfree (by
      intro i hi
      rw [hnew] at hi
      cases hi)
    rw [hopen] at hopen'
    cases hopen'
    exact ⟨[], hserves, KeyMap.shows_empty, hoptions, .inl rfl⟩
  | @acknowledged ms x m _ hok ih =>
    obtain ⟨recs, hserves, hshows, hoptions, -⟩ := ih
    rcases exec_mutation hserves m with ⟨e, hexec⟩ | ⟨r, s', d', hexec, hmut⟩
    · rw [call_mutation, hexec] at hok
      cases hok
    · have hshows' := shows_mutated hserves hshows hexec hmut
      rw [← mapAfter_concat] at hshows'
      rw [call_mutation, hexec]
      refine ⟨recs ++ [r], hmut.serves, hshows', by rw [hmut.options, hoptions], .inr ?_⟩
      change (d'.files s'.log.file.inode).synced = (d'.files s'.log.file.inode).content
      rw [hmut.file]
      exact hmut.synced (by rw [hoptions, withDefaults_syncInterval, hsync])
  | @refused ms x m e _ herr ih =>
    obtain ⟨recs, hserves, hshows, hoptions, hdur⟩ := ih
    rcases exec_mutation hserves m with ⟨e', hexec⟩ | ⟨r, s', d', hexec, hmut⟩
    · rw [call_mutation, hexec]
      exact ⟨recs, hserves, hshows, hoptions, hdur⟩
    · rw [call_mutation, hexec] at herr
      cases herr
  | @crashed ms ms' x m t d d' s _ hv hcrash hopen _ hrefines ih =>
    obtain ⟨recs, hserves, hshows, hoptions, hdur⟩ := ih
    obtain ⟨s1, d1, recs', hopen', hserves', hoptions', hdur', -⟩ := open_crashed hacc hserves hdur m hv hcrash
    rw [hopen] at hopen'
    cases hopen'
    obtain ⟨recs2, hserves2, hshows2⟩ := hrefines
    refine ⟨recs2, hserves2, hshows2, hoptions', ?_⟩
    rw [hserves2.records_unique hserves']
    exact hdur'

/-- A crash at any instant of a mutation loses nothing that was acknowledged. -/
theorem Lives.open_crashed {ms : List Mutation} (hacc : options.Accepted path) (hsync : options.syncInterval = 0)
    (h : Lives path options ms x) (m : Mutation) {t d : Disk}
    (hv : Prog.Visits Disk.answer (m.program x.store) x.disk t) (hcrash : Crashed path t d) :
    ∃ s d' ms', Disk.exec (openStore path options) d = (.ok s, d') ∧ (ms' = ms ∨ ms' = ms ++ [m]) ∧
      Lives path options ms' ⟨s, d'⟩ := by
  obtain ⟨recs, hserves, hshows, -, hdur⟩ := h.shows hacc hsync
  obtain ⟨s, d', recs', hopen, hserves', -, -, hrecs⟩ := AppendStore.open_crashed hacc hserves hdur m hv hcrash
  rcases hrecs with rfl | ⟨r, s1, d1, hexec, hmut, rfl⟩
  · exact ⟨s, d', ms, hopen, .inl rfl, .crashed h hv hcrash hopen (.inl rfl) ⟨recs', hserves', hshows⟩⟩
  · have hshows' := shows_mutated hserves hshows hexec hmut
    rw [← mapAfter_concat] at hshows'
    exact ⟨s, d', ms ++ [m], hopen, .inr rfl, .crashed h hv hcrash hopen (.inr rfl) ⟨_, hserves', hshows'⟩⟩

/-- **Crash-prefix recovery.** After any history of acknowledged mutations, crashes and recoveries,
`Open` of any front part of the file that has the header recovers exactly the last state whose log lies
within it, cuts the file there, and a further `Open` changes nothing. With a sync after each mutation,
over any number of runs and crashes, the store answers as the map after all acknowledged mutations,
with or without the one a crash interrupted. -/
theorem crash_prefix_recovery (hacc : options.Accepted path) :
    (∀ past x, History path options past x → ∀ n d, logHeaderSize ≤ n → CutAt path n x.disk d →
      ∃ s d' pre y post, Disk.exec (openStore path options) d = (.ok s, d') ∧
        past ++ [x] = pre ++ y :: post ∧ y.store.log.writePos ≤ n ∧
        (∀ z ∈ post, n < z.store.log.writePos) ∧ SameState path ⟨s, d'⟩ y ∧
        d'.bytesAt path = (x.disk.bytesAt path).map (List.take y.store.log.writePos) ∧
        ∀ d2, Openable d2 path → d2.bytesAt path = d'.bytesAt path →
          ∃ s2 d3, Disk.exec (openStore path options) d2 = (.ok s2, d3) ∧ SameState path ⟨s2, d3⟩ ⟨s, d'⟩) ∧
    (options.syncInterval = 0 → ∀ ms x, Lives path options ms x →
      (∀ calls, (∀ c ∈ calls, c.Accepted path) →
        answers (Session.call path) x calls = answers KeyMap.call (mapAfter ms) calls) ∧
      ∀ m t d, Prog.Visits Disk.answer (m.program x.store) x.disk t → Crashed path t d →
        ∃ s d' ms', Disk.exec (openStore path options) d = (.ok s, d') ∧ (ms' = ms ∨ ms' = ms ++ [m]) ∧
          Lives path options ms' ⟨s, d'⟩) := by
  constructor
  · intro past x h n d hn hcut
    exact h.open_cut hacc hn hcut
  · intro hsync ms x h
    constructor
    · intro calls hcalls
      obtain ⟨recs, hserves, hshows, -⟩ := h.shows hacc hsync
      have hstart : Refines path x (mapAfter ms) := ⟨recs, hserves, hshows⟩
      exact answers_eq calls (fun c hc y m hy => call_refines c (hcalls c hc) hy) hstart
    · intro m t d hv hcrash
      exact h.open_crashed hacc hsync m hv hcrash

theorem cutAt_logDisk {d : Disk} {b : Bytes} (hb : d.bytesAt "db" = some b) (n : ℕ) :
    CutAt "db" n d (logDisk (b.take n)) := by
  refine ⟨logDisk_openable _, ?_⟩
  rw [hb]
  rfl

/-- The state of a new store after mutations it has acknowledged, with its past. -/
structure Ran (path : Path) (options : Options) (ms : List Mutation) (past : List Session) (x : Session) : Prop where
  worked : worked path options (ms.map Mutation.call) = some x
  refines : Refines path x (mapAfter ms)
  history : History path options past x
  lives : Lives path options ms x

theorem exists_ran (hacc : options.Accepted path) : ∃ x, Ran path options [] [] x := by
  obtain ⟨x, hx, hserves⟩ := opened_blank hacc
  have hopen := opened_eq_some.mp hx
  have hworked : AppendStore.worked path options [] = some x := by
    rw [AppendStore.worked, hx]
    rfl
  exact ⟨x, hworked, ⟨[], hserves, KeyMap.shows_empty⟩,
    .opened Disk.blank_sound (blank_lockFree path) rfl hopen, .opened Disk.blank_sound (blank_lockFree path) rfl hopen⟩

theorem Ran.next {ms : List Mutation} (h : Ran path options ms past x) (m : Mutation)
    (hok : ((mapAfter ms).call m.call).1 = .done (.ok ())) : ∃ y, Ran path options (ms ++ [m]) (past ++ [x]) y := by
  have hcall : m.call.Accepted path := by cases m <;> trivial
  obtain ⟨hans, hrefines⟩ := call_refines m.call hcall h.refines
  rw [hok] at hans
  refine ⟨(x.call path m.call).2, ?_, ?_, h.history.acknowledged m hans, h.lives.acknowledged m hans⟩
  · rw [List.map_append, List.map_singleton, worked_concat, h.worked, Option.map_some]
  · rw [mapAfter_concat]
    exact hrefines

/-- A key is put, overwritten and deleted. -/
def threeMutations : List Mutation := [.put [1] [2] none, .put [1] [5, 6] none, .delete [1]]

/-- The disk when a further `Put` has written its record and has not synced it. -/
def unsyncedPut (x : Session) : Disk :=
  Prog.instant Disk.answer 1 ((Mutation.put [3] [4] none).program x.store) x.disk

/-- A cut in the middle of the tombstone, and a crash in the middle of the record of a further `Put`. -/
theorem crash_prefix_recovery_torn : ∃ x y b c, worked "db" .zero (threeMutations.map Mutation.call) = some x ∧
    worked "db" .zero ((threeMutations.take 2).map Mutation.call) = some y ∧
    x.disk.bytesAt "db" = some b ∧ b.length = 106 ∧ (unsyncedPut x).bytesAt "db" = some c ∧ c.length = 136 ∧
    (∃ s d, Disk.exec (openStore "db" .zero) (logDisk (b.take 90)) = (.ok s, d) ∧ SameState "db" ⟨s, d⟩ y ∧
      d.bytesAt "db" = some (b.take 77)) ∧
    ∃ s d ms, Disk.exec (openStore "db" .zero) (logDisk (c.take 120)) = (.ok s, d) ∧
      (ms = threeMutations ∨ ms = threeMutations ++ [.put [3] [4] none]) ∧ Lives "db" .zero ms ⟨s, d⟩ := by
  have hacc : Options.zero.Accepted "db" := zero_accepted (by decide)
  obtain ⟨x0, h0⟩ := exists_ran hacc
  obtain ⟨x1, h1⟩ := h0.next (.put [1] [2] none) rfl
  obtain ⟨x2, h2⟩ := h1.next (.put [1] [5, 6] none) rfl
  obtain ⟨x3, h3⟩ := h2.next (.delete [1]) rfl
  have hpos : ∀ {ms past x n}, Ran "db" .zero ms past x →
      (worked "db" .zero (ms.map Mutation.call)).map (fun x => x.store.log.writePos) = some n →
      x.store.log.writePos = n := by
    intro ms past x n h hn
    rwa [h.worked, Option.map_some, Option.some.injEq] at hn
  have hp2 : x2.store.log.writePos = 77 := hpos h2 (by decide +kernel)
  have hp3 : x3.store.log.writePos = 106 := hpos h3 (by decide +kernel)
  have hsizes : (worked "db" .zero (threeMutations.map Mutation.call)).map (fun x =>
      ((x.disk.bytesAt "db").map List.length, ((unsyncedPut x).bytesAt "db").map List.length,
        ((unsyncedPut x).dir "db").map fun i => ((unsyncedPut x).files i).synced.length)) =
      some (some 106, some 136, some 106) := by
    decide +kernel
  rw [show worked "db" .zero (threeMutations.map Mutation.call) = some x3 from h3.worked, Option.map_some,
    Option.some.injEq, Prod.mk.injEq, Prod.mk.injEq] at hsizes
  obtain ⟨hb, hc, hsynced⟩ := hsizes
  obtain ⟨b, hb, hblen⟩ := Option.map_eq_some_iff.mp hb
  obtain ⟨c, hc, hclen⟩ := Option.map_eq_some_iff.mp hc
  obtain ⟨hcuts, hlives⟩ := crash_prefix_recovery hacc
  refine ⟨x3, x2, b, c, h3.worked, h2.worked, hb, hblen, hc, hclen, ?_, ?_⟩
  · obtain ⟨s, d, pre, y, post, hopen, hsplit, hle, hlt, hsame, hbytes, -⟩ :=
      hcuts _ x3 h3.history 90 _ (by decide) (cutAt_logDisk hb 90)
    -- of the four states, the third is the last one whose log ends within the cut
    have hy : y = x2 := by
      have hlast : ∀ z ∈ [x3], ¬ z.store.log.writePos ≤ 90 := by
        intro z hz
        rw [List.mem_singleton.mp hz, hp3]
        decide
      have hstates : pre ++ y :: post = [x0, x1] ++ x2 :: [x3] := hsplit.symm
      exact (split_unique (P := fun z : Session => z.store.log.writePos ≤ 90) hstates hle (by rw [hp2]; decide)
        (fun z hz => Nat.not_le_of_lt (hlt z hz)) hlast).2
    subst hy
    refine ⟨s, d, hopen, hsame, ?_⟩
    rw [hbytes, hb, hp2, Option.map_some]
  · have hcrashed : Crashed "db" (unsyncedPut x3) (logDisk (c.take 120)) := by
      refine ⟨120, by decide, cutAt_logDisk hc 120, fun i hi => ?_, fun i _ => rfl⟩
      rw [hi, Option.map_some, Option.some.injEq] at hsynced
      omega
    exact (hlives rfl _ x3 h3.lives).2 (.put [3] [4] none) _ _ (Prog.visits_instant 1 _ _) hcrashed
end

end AppendStore
