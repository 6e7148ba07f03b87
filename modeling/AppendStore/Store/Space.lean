import AppendStore.Store.Lossless
import AppendStore.Store.ReadOnly

/-! # Space accounting

The records of a log tile the file behind its header. Those that are live are the ones in the index, so the rest of
the file is the tombstones and the records that a later one of the same key supersedes (`deadSize`). After a
compaction there are none, and there are none until a live key is written again or deleted.
-/

namespace AppendStore
open Library
set_option autoImplicit false

/-! ## Live and dead records -/

section
variable {version : ℕ}

/-- The stored size of the tombstones and of the records that a later one of the same key supersedes. -/
def deadSize : List (Rec version) → ℕ
  | [] => 0
  | r :: recs => (if r.deleted = true ∨ r.key ∈ recs.map Rec.key then r.bytes.length else 0) + deadSize recs

theorem placedEvent_keys (pos : ℕ) (recs : List (Rec version)) :
    ((placed pos recs).map placedEvent).map Prod.fst = recs.map Rec.key := by
  rw [List.map_map]
  nth_rewrite 2 [← placed_map_snd pos recs]
  rw [List.map_map]
  rfl

/-- The live and the dead records make up the log. -/
theorem concat_length_eq (recs : List (Rec version)) :
    (concat recs).length = ((liveRecs recs).map fun y => y.2.2.bytes.length).sum + deadSize recs := by
  rw [liveRecs, live_eq_finals]
  generalize logHeaderSize = pos
  induction recs generalizing pos with
  | nil => rfl
  | cons r recs ih =>
    have hmem : (placedEvent (pos, r)).1 ∈ ((placed (pos + r.bytes.length) recs).map placedEvent).map Prod.fst ↔
        r.key ∈ recs.map Rec.key := by
      rw [placedEvent_keys]
      exact Iff.rfl
    rw [concat_cons, List.length_append, ih (pos + r.bytes.length), placed, List.map_cons, finals, deadSize,
      List.map_append, List.sum_append]
    by_cases hlater : r.key ∈ recs.map Rec.key
    · rw [if_pos (hmem.mpr hlater), if_pos (.inr hlater), List.map_nil, List.sum_nil]
      omega
    · rw [if_neg fun h => hlater (hmem.mp h)]
      cases hdel : r.deleted with
      | true =>
        rw [if_pos (.inl rfl)]
        simp only [placedEvent, hdel, if_true, Option.map_none, Option.toList_none, List.map_nil, List.sum_nil]
        omega
      | false =>
        rw [if_neg (by simp [hlater])]
        simp only [placedEvent, hdel, Bool.false_eq_true, if_false, Option.map_some, Option.toList_some, List.map_cons,
          List.map_nil, List.sum_cons, List.sum_nil]
        omega

/-- A log without dead records. -/
structure Clean (recs : List (Rec version)) : Prop where
  keys : (recs.map Rec.key).Nodup
  puts : ∀ r ∈ recs, r.deleted = false

theorem Clean.deadSize {recs : List (Rec version)} (h : Clean recs) : deadSize recs = 0 := by
  obtain ⟨hkeys, hputs⟩ := h
  induction recs with
  | nil => rfl
  | cons r recs ih =>
    rw [List.map_cons, List.nodup_cons] at hkeys
    have hdel := hputs r List.mem_cons_self
    rw [AppendStore.deadSize, if_neg (by rw [hdel]; simp only [Bool.false_eq_true, false_or]; exact hkeys.1),
      Nat.zero_add]
    exact ih hkeys.2 fun r hr => hputs r (List.mem_cons_of_mem _ hr)

theorem clean_compacted (recs : List (Rec version)) : Clean (compacted recs) := by
  refine ⟨?_, ?_⟩
  · rw [compacted_keys]
    exact live_nodup _
  · intro r hr
    obtain ⟨x, -, rfl⟩ := List.mem_map.mp hr
    exact x.2.2.rewritten_deleted

/-- Every record of a clean log is live. -/
theorem Clean.contents_keys {recs : List (Rec version)} (h : Clean recs) :
    (contents recs).map Prod.fst = recs.map Rec.key := by
  rw [AppendStore.contents_keys, liveRecs_of_distinct h.keys h.puts, List.map_map]
  nth_rewrite 2 [← placed_map_snd logHeaderSize recs]
  rw [List.map_map]
  rfl

theorem Clean.append {recs : List (Rec version)} (h : Clean recs) {r : Rec version} (hdel : r.deleted = false)
    (hnew : r.key ∉ (contents recs).map Prod.fst) : Clean (recs ++ [r]) := by
  rw [h.contents_keys] at hnew
  refine ⟨?_, ?_⟩
  · rw [List.map_append, List.map_singleton]
    refine h.keys.append (List.nodup_singleton _) ?_
    rw [List.disjoint_singleton]
    exact hnew
  · intro r' hr'
    rcases List.mem_append.mp hr' with hmem | hmem
    · exact h.puts r' hmem
    · rw [List.mem_singleton.mp hmem]
      exact hdel

end

/-! ## The tiling of the file -/

/-- The index is the replay of records that end where the log ends, and that are in the file. -/
structure Tiled (x : Session) (path : Path) (recs : List (Rec logVersion)) : Prop where
  index : ∃ fields, x.store.index.Same (replay fields recs)
  writePos : x.store.log.writePos = logHeaderSize + (concat recs).length
  bytes : ∃ b, x.disk.bytesAt path = some b ∧ logHeaderSize ≤ b.length ∧
    b.take x.store.log.writePos = b.take logHeaderSize ++ concat recs

section
variable {x : Session} {path : Path} {recs : List (Rec logVersion)}

theorem Serves.tiled (h : Serves x.disk x.store path recs) : Tiled x path recs := by
  refine ⟨⟨_, h.index⟩, h.image.writePos, _, h.bytesAt, ?_, ?_⟩
  · rw [List.length_append, currentHeader_length]
    omega
  · rw [← currentHeader_length, List.take_left, h.image.writePos, ← currentHeader_length, ← List.length_append,
      List.take_length]

theorem Frozen.tiled {i mask : ℕ} (h : Frozen x.disk x.store path i mask recs) : Tiled x path recs := by
  obtain ⟨hdr, hr⟩ := h.reads
  obtain ⟨tail, hcontent, -⟩ := hr.content
  refine ⟨⟨_, h.viewed.index⟩, h.writePos, (x.disk.files i).content, ?_, (readHeaderOf_ok hr.headerOk).1, ?_⟩
  · rw [Disk.bytesAt, h.dir]
    rfl
  · rw [h.writePos]
    nth_rewrite 1 [hcontent]
    rw [List.take_left' (by rw [List.length_append, hr.headerLength])]

/-- The entries of two keys do not overlap. -/
theorem Tiled.disjoint (h : Tiled x path recs) {k k' : Bytes} {e e' : IndexEntry} (he : x.store.index.get k = some e)
    (he' : x.store.index.get k' = some e') (hne : k ≠ k') :
    e.recordOffset + e.storedSize ≤ e'.recordOffset ∨ e'.recordOffset + e'.storedSize ≤ e.recordOffset := by
  obtain ⟨fields, hindex⟩ := h.index
  obtain ⟨y, hy, rfl⟩ := hindex.get_some he
  obtain ⟨y', hy', rfl⟩ := hindex.get_some he'
  rcases List.mem_iff_getElem.mp hy with ⟨m, hm, hmy⟩
  rcases List.mem_iff_getElem.mp hy' with ⟨n, hn, hny⟩
  have hpair := List.pairwise_iff_getElem.mp (liveRecs_pairwise recs)
  rcases Nat.lt_trichotomy m n with hlt | heq | hgt
  · have hle := hpair m n hm hn hlt
    rw [hmy, hny] at hle
    exact .inl hle
  · subst heq
    exact absurd (congrArg Prod.fst (hmy.symm.trans hny)) hne
  · have hle := hpair n m hn hm hgt
    rw [hmy, hny] at hle
    exact .inr hle

/-- The entry of a key lies between the header and the end of the log. -/
theorem Tiled.inside (h : Tiled x path recs) {k : Bytes} {e : IndexEntry} (he : x.store.index.get k = some e) :
    logHeaderSize ≤ e.recordOffset ∧ 0 < e.storedSize ∧ e.recordOffset + e.storedSize ≤ x.store.log.writePos := by
  obtain ⟨fields, hindex⟩ := h.index
  obtain ⟨y, hy, rfl⟩ := hindex.get_some he
  obtain ⟨hlo, hhi⟩ := placed_bounds (liveRecs_mem hy).1
  rw [h.writePos]
  exact ⟨hlo, y.2.nonempty, hhi⟩

/-- What is not live is dead. -/
theorem Tiled.size (h : Tiled x path recs) :
    x.store.diskSize = logHeaderSize + x.store.index.totalSize + deadSize recs := by
  obtain ⟨fields, hindex⟩ := h.index
  rw [Store.diskSize, AppendLog.size, h.writePos, hindex.totalSize, concat_length_eq]
  omega

theorem needsCompaction_of_full {s : Store} (hsize : s.diskSize = logHeaderSize + s.index.totalSize)
    (hthreshold : 0 < s.options.compactionThreshold) : s.needsCompaction = false := by
  have hdata : ((s.log.size : ℤ) - logHeaderSize) = s.index.totalSize := by
    rw [show s.log.size = s.diskSize from rfl, hsize]
    push_cast
    omega
  unfold Store.needsCompaction
  dsimp only
  rw [hdata]
  split
  · rfl
  · rename_i hpos
    have hne : (s.index.totalSize : ℚ) ≠ 0 := by
      intro hzero
      exact hpos (by rw [Nat.cast_eq_zero.mp hzero]; rfl)
    rw [Int.cast_natCast, div_self hne, sub_self]
    exact decide_eq_false (not_lt.mpr hthreshold.le)

end

/-! ## Every reachable state -/

/-- The states of a store that `Open` returned, whatever the file held, after any calls that write. -/
def WriteReachable (path : Path) (x : Session) : Prop :=
  ∃ (options : Options) (d : Disk) (s : Store) (d' : Disk) (calls : List ClientCall),
    d.Sound ∧ Disk.exec (openStore path options) d = (.ok s, d') ∧ (∀ c ∈ calls, c.writes = true) ∧
      x = final Session.serve ⟨s, d'⟩ calls

/-- A store that writes, or one that must not. -/
inductive Running (path : Path) (x : Session) (recs : List (Rec logVersion)) : Prop
  | serves (h : Serves x.disk x.store path recs) : Running path x recs
  | frozen (i mask : ℕ) (h : Frozen x.disk x.store path i mask recs) : Running path x recs

section
variable {x : Session} {path : Path} {recs : List (Rec logVersion)}

theorem Running.tiled (h : Running path x recs) : Tiled x path recs := by
  cases h with
  | serves h => exact h.tiled
  | frozen i mask h => exact h.tiled

theorem withDefaults_threshold (options : Options) : 0 < options.withDefaults.compactionThreshold := by
  have hthreshold : options.withDefaults.compactionThreshold =
      if options.compactionThreshold ≤ 0 then 1 / 5 else options.compactionThreshold := by
    unfold Options.withDefaults
    dsimp only
    split <;> split <;> rfl
  rw [hthreshold]
  split
  · norm_num
  · rename_i hpos
    exact not_le.mp hpos

/-- **Whatever `Open` returns is running.** -/
theorem openStore_running {options : Options} {d d' : Disk} {s : Store} (hs : d.Sound)
    (hopen : Disk.exec (openStore path options) d = (.ok s, d')) :
    ∃ recs, Running path ⟨s, d'⟩ recs ∧ s.options = options.withDefaults := by
  by_cases hknown : FeaturesKnown d path
  · obtain ⟨recs, hserves, hoptions⟩ := openStore_serves hs hknown hopen
    exact ⟨recs, .serves hserves, hoptions⟩
  · unfold FeaturesKnown at hknown
    push Not at hknown
    obtain ⟨i, h, hmain, hheader, hro⟩ := hknown
    have hv : h.version = logVersion := by
      obtain ⟨hlen, hdecode⟩ := readHeaderOf_ok hheader
      obtain ⟨-, hle, -, hold, -⟩ := decodeHeader_ok (by rw [List.length_take, Nat.min_eq_left hlen]) hdecode
      by_contra hne
      exact hro (hold (Nat.lt_of_le_of_ne hle hne))
    obtain ⟨hacc, hfree, recs, hr⟩ := (openStore_current_iff hs hmain hheader hv options).mp ⟨s, d', hopen⟩
    obtain ⟨s1, d1, hopen1, hfrozen, hoptions, -⟩ := exec_openStore_frozen hacc hs hfree hmain hr hro
    cases hopen.symm.trans hopen1
    exact ⟨recs, .frozen i _ hfrozen, hoptions⟩

/-- A call that writes, on a store that serves: it is refused, or it adds a record, or it compacts the log. -/
theorem serve_writes (h : Serves x.disk x.store path recs) {c : ClientCall} (hc : c.writes = true) :
    (x.serve c).2.store.options = x.store.options ∧
      ((x.serve c).2 = x ∨ (∃ key value attributes ab, ∃ hlim : appendLimits key value (attributes.getD ∅) [] = .ok ab,
          c = .put key value attributes ∧ (Disk.exec (x.store.put key value attributes) x.disk).1.1 = .ok () ∧
          Serves (x.serve c).2.disk (x.serve c).2.store path (recs ++ [appendRec hlim false])) ∨
        (∃ key, ∃ hkey : key.length ≤ maxKeySize, c = .delete key ∧ key ∈ (contents recs).map Prod.fst ∧
          (Disk.exec (x.store.delete key) x.disk).1.1 = .ok () ∧
          Serves (x.serve c).2.disk (x.serve c).2.store path (recs ++ [appendRec (tombstone_limits hkey) true])) ∨
        Serves (x.serve c).2.disk (x.serve c).2.store path (compacted recs)) := by
  cases c with
  | put key value attributes =>
    cases hlim : appendLimits key value (attributes.getD ∅) [] with
    | error e =>
      simp only [Session.serve, exec_put_rejected h hlim]
      exact ⟨trivial, .inl trivial⟩
    | ok ab =>
      obtain ⟨s', d', hexec, hmut⟩ := exec_put h hlim
      simp only [Session.serve, hexec]
      exact ⟨hmut.options, .inr (.inl ⟨key, value, attributes, ab, hlim, rfl, by rw [hexec], hmut.serves⟩)⟩
  | delete key =>
    by_cases hlive : key ∈ (contents recs).map Prod.fst
    · obtain ⟨⟨k, v⟩, hkv, rfl⟩ := List.mem_map.mp hlive
      obtain ⟨s', d', hexec, hmut⟩ := exec_delete h (contents_keyLimit hkv) hlive
      simp only [Session.serve, hexec]
      exact ⟨hmut.options, .inr (.inr (.inl ⟨k, contents_keyLimit hkv, rfl, hlive, by rw [hexec], hmut.serves⟩))⟩
    · simp only [Session.serve, exec_delete_absent h hlive]
      exact ⟨trivial, .inl trivial⟩
  | compact =>
    obtain ⟨s', d', hexec, hserves, hoptions, -⟩ := exec_compact h
    simp only [Session.serve, hexec]
    exact ⟨hoptions, .inr (.inr (.inr hserves))⟩
  | _ => cases hc

/-- Every call that writes leaves the store running. -/
theorem Running.call (h : Running path x recs) {c : ClientCall} (hc : c.writes = true) :
    (∃ recs', Running path (x.serve c).2 recs') ∧ (x.serve c).2.store.options = x.store.options := by
  cases h with
  | frozen i mask h =>
    rw [serve_refused h.reason hc]
    exact ⟨⟨recs, .frozen i mask h⟩, rfl⟩
  | serves h =>
    obtain ⟨hoptions, hsame | ⟨key, value, attributes, ab, hlim, -, -, h'⟩ | ⟨key, hkey, -, -, -, h'⟩ | h'⟩ :=
      serve_writes h hc
    · rw [hsame]
      exact ⟨⟨recs, .serves h⟩, rfl⟩
    · exact ⟨⟨_, .serves h'⟩, hoptions⟩
    · exact ⟨⟨_, .serves h'⟩, hoptions⟩
    · exact ⟨⟨_, .serves h'⟩, hoptions⟩

theorem WriteReachable.running (h : WriteReachable path x) :
    (∃ recs, Running path x recs) ∧ 0 < x.store.options.compactionThreshold := by
  obtain ⟨options, d, s, d', calls, hs, hopen, hcalls, rfl⟩ := h
  obtain ⟨recs, hrunning, hoptions⟩ := openStore_running hs hopen
  refine final_invariant calls (I := fun x => (∃ recs, Running path x recs) ∧ 0 < x.store.options.compactionThreshold)
    ?_ ⟨⟨recs, hrunning⟩, ?_⟩
  · rintro c hc y ⟨⟨recs, hy⟩, hthreshold⟩
    obtain ⟨hcall, hsame⟩ := hy.call (hcalls c hc)
    exact ⟨hcall, by rw [hsame]; exact hthreshold⟩
  · change 0 < s.options.compactionThreshold
    rw [hoptions]
    exact withDefaults_threshold options

/-! ## After a compaction -/

/-- A `Put` or a `Delete` of a live key that succeeds. -/
def ClientCall.Disturbs (x : Session) : ClientCall → Prop
  | put key value attributes =>
    x.store.contains key = true ∧ (Disk.exec (x.store.put key value attributes) x.disk).1.1 = .ok ()
  | delete key => x.store.contains key = true ∧ (Disk.exec (x.store.delete key) x.disk).1.1 = .ok ()
  | _ => False

/-- No call of the run overwrites or deletes a live key. -/
def Undisturbed : Session → List ClientCall → Prop
  | _, [] => True
  | x, c :: cs => ¬ c.Disturbs x ∧ Undisturbed (x.serve c).2 cs

theorem Serves.contains_iff (h : Serves x.disk x.store path recs) (key : Bytes) :
    x.store.contains key = true ↔ key ∈ (contents recs).map Prod.fst := by
  rw [contains_eq h, Option.isSome_iff_ne_none, ne_eq, lookup_eq_none, not_not]

/-- The log stays clean as long as no live key is overwritten or deleted. -/
theorem Clean.call (hclean : Clean recs) (h : Serves x.disk x.store path recs) {c : ClientCall}
    (hc : c.writes = true) (hquiet : ¬ c.Disturbs x) :
    ∃ recs', Clean recs' ∧ Serves (x.serve c).2.disk (x.serve c).2.store path recs' ∧
      (x.serve c).2.store.options = x.store.options := by
  obtain ⟨hoptions, hsame | ⟨key, value, attributes, ab, hlim, rfl, hok, h'⟩ | ⟨key, hkey, rfl, hlive, hok, -⟩ | h'⟩ :=
    serve_writes h hc
  · rw [hsame]
    exact ⟨recs, hclean, h, rfl⟩
  · have hnew : key ∉ (contents recs).map Prod.fst := fun hlive => hquiet ⟨(h.contains_iff key).mpr hlive, hok⟩
    exact ⟨_, hclean.append (appendRec_deleted hlim false) hnew, h', hoptions⟩
  · exact absurd ⟨(h.contains_iff key).mpr hlive, hok⟩ hquiet
  · exact ⟨_, clean_compacted recs, h', hoptions⟩

theorem Clean.run (hclean : Clean recs) (h : Serves x.disk x.store path recs)
    (hthreshold : 0 < x.store.options.compactionThreshold) (calls : List ClientCall)
    (hcalls : ∀ c ∈ calls, c.writes = true) (hquiet : Undisturbed x calls) :
    (final Session.serve x calls).store.needsCompaction = false := by
  induction calls generalizing x recs with
  | nil =>
    refine needsCompaction_of_full ?_ hthreshold
    have hsize := h.tiled.size
    rw [hclean.deadSize, Nat.add_zero] at hsize
    exact hsize
  | cons c calls ih =>
    obtain ⟨hhead, htail⟩ := hquiet
    obtain ⟨recs', hclean', h', hoptions⟩ := hclean.call h (hcalls c List.mem_cons_self) hhead
    exact ih hclean' h' (by rw [hoptions]; exact hthreshold) (fun c hc => hcalls c (List.mem_cons_of_mem _ hc)) htail

/-- **Space accounting.** In every state that calls that write reach from `Open`, the entries of the index are
disjoint parts of the file between the header and the end of the log; what the live records do not take is taken by
tombstones and superseded records; and after a compaction there are none of these, so that no compaction is asked for
until a live key is overwritten or deleted. -/
theorem space_accounting (h : WriteReachable path x) :
    (∀ k e k' e', x.store.index.get k = some e → x.store.index.get k' = some e' → k ≠ k' →
      e.recordOffset + e.storedSize ≤ e'.recordOffset ∨ e'.recordOffset + e'.storedSize ≤ e.recordOffset) ∧
    (∀ k e, x.store.index.get k = some e → logHeaderSize ≤ e.recordOffset ∧ 0 < e.storedSize ∧
      e.recordOffset + e.storedSize ≤ x.store.log.writePos) ∧
    (logHeaderSize ≤ x.store.diskSize ∧ x.store.index.totalSize ≤ x.store.diskSize - logHeaderSize) ∧
    (∃ (b : Bytes) (recs : List (Rec logVersion)), x.disk.bytesAt path = some b ∧
      b.take x.store.diskSize = b.take logHeaderSize ++ concat recs ∧
      x.store.diskSize - logHeaderSize - x.store.index.totalSize = deadSize recs) ∧
    ∀ s' d', Disk.exec x.store.compact x.disk = ((.ok (), s'), d') →
      s'.diskSize - logHeaderSize - s'.index.totalSize = 0 ∧ s'.index.totalSize ≤ s'.diskSize - logHeaderSize ∧
      ∀ calls : List ClientCall, (∀ c ∈ calls, c.writes = true) → Undisturbed ⟨s', d'⟩ calls →
        (final Session.serve ⟨s', d'⟩ calls).store.needsCompaction = false := by
  obtain ⟨⟨recs, hrunning⟩, hthreshold⟩ := h.running
  have htiled := hrunning.tiled
  have hsize := htiled.size
  refine ⟨fun k e k' e' he he' hne => htiled.disjoint he he' hne, fun k e he => htiled.inside he, ⟨?_, ?_⟩, ?_, ?_⟩
  · omega
  · omega
  · obtain ⟨b, hb, -, htake⟩ := htiled.bytes
    exact ⟨b, recs, hb, htake, by omega⟩
  · intro s' d' hexec
    cases hrunning with
    | frozen i mask hfrozen =>
      rw [Store.compact, Store.ifWritable_readOnly hfrozen.reason] at hexec
      cases hexec
    | serves hserves =>
      obtain ⟨s1, d1, hexec1, hserves1, hoptions, -⟩ := exec_compact hserves
      cases hexec.symm.trans hexec1
      have hsize1 : s'.diskSize = logHeaderSize + s'.index.totalSize + deadSize (compacted recs) :=
        (Serves.tiled (x := ⟨s', d'⟩) hserves1).size
      rw [(clean_compacted recs).deadSize] at hsize1
      refine ⟨by omega, by omega, fun calls hcalls hquiet => ?_⟩
      exact (clean_compacted recs).run (x := ⟨s', d'⟩) hserves1 (by rw [hoptions]; exact hthreshold) calls hcalls hquiet

/-- A key is overwritten, a second one is deleted, and a third one stays. -/
def busyWrites : List ClientCall :=
  [.put [1] [2] (some ((∅ : AttributeRange).insert [9] [4])), .put [3] [4] none,
    .put [1] [5, 6] (some ((∅ : AttributeRange).insert [9] [8])), .delete [3], .put [7] [8] none]

theorem space_accounting_busy : ∃ x, worked "db" .zero busyCalls = some x ∧ x.store.diskSize = 182 ∧
    x.store.index.totalSize = 69 ∧
    (∃ (b : Bytes) (recs : List (Rec logVersion)), x.disk.bytesAt "db" = some b ∧
      b.take x.store.diskSize = b.take logHeaderSize ++ concat recs ∧ deadSize recs = 97) ∧
    ∃ s' d', Disk.exec x.store.compact x.disk = ((.ok (), s'), d') ∧
      s'.diskSize - logHeaderSize - s'.index.totalSize = 0 ∧
      (final Session.serve ⟨s', d'⟩ [.put [3] [4] none]).store.needsCompaction = false := by
  obtain ⟨x, hx, hreach⟩ := worked_reachable (zero_accepted (by decide)) (busyCalls_accepted "db")
  obtain ⟨recs, hserves⟩ := hreach.serves
  have hsame : ∀ y, final (Session.call "db") y busyCalls = final Session.serve y busyWrites := by
    intro y
    simp only [busyCalls, busyWrites, final, Session.call, Session.serve]
  have hwrites : WriteReachable "db" x := by
    obtain ⟨y, hopened, hfinal⟩ := Option.map_eq_some_iff.mp hx
    rw [hsame] at hfinal
    exact ⟨.zero, .blank, y.store, y.disk, busyWrites, Disk.blank_sound, opened_eq_some.mp hopened,
      by simp [busyWrites, ClientCall.writes], hfinal.symm⟩
  obtain ⟨s', d', hexec, -⟩ := exec_compact hserves
  have hsizes : (worked "db" .zero busyCalls).map (fun x => (x.store.diskSize, x.store.index.totalSize)) =
      some (182, 69) := by
    decide +kernel
  have hgone : (worked "db" .zero (busyCalls ++ [.compact])).map (fun x => x.store.contains [3]) = some false := by
    decide +kernel
  rw [hx, Option.map_some, Option.some.injEq] at hsizes
  rw [worked_concat, hx, Option.map_some, Option.map_some, Option.some.injEq, Session.call, hexec] at hgone
  obtain ⟨hdisk, htotal⟩ := Prod.mk.inj hsizes
  obtain ⟨-, -, -, ⟨b, recs', hb, htake, hdead⟩, hcompact⟩ := space_accounting hwrites
  obtain ⟨hzero, -, hquiet⟩ := hcompact s' d' hexec
  rw [hdisk, htotal] at hdead
  refine ⟨x, hx, hdisk, htotal, ⟨b, recs', hb, htake, hdead.symm⟩, s', d', hexec, hzero, ?_⟩
  refine hquiet _ (by simp [ClientCall.writes]) ⟨fun hdisturbs => ?_, trivial⟩
  exact Bool.false_ne_true (hgone.symm.trans hdisturbs.1)

end

end AppendStore
