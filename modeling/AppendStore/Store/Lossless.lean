import AppendStore.Store.LiveIndex

/-! # What compaction keeps

Whatever bytes the log held when it was opened, and whatever was done since, `Compact` succeeds. Every
live key keeps its value, attributes, extension area and stored size, and scans see the keys in the
same order; the new file is the header and the live records alone.
-/

namespace AppendStore
open Library
set_option autoImplicit false

/-- What a store holds for a key: the value and the extension area that a point read returns, and the
attributes and the stored size of the index. -/
def Session.record (x : Session) (key : Bytes) : Option (Except Err (Bytes × Bytes) × Attributes × ℕ) :=
  (x.store.index.get key).map fun e =>
    ((Disk.exec (x.store.log.readRecordAndExtensionsAt e.recordOffset e.storedSize) x.disk).1, e.attributes,
      e.storedSize)

/-- What a record holds for its key. -/
def Rec.holds {version : ℕ} (r : Rec version) : Except Err (Bytes × Bytes) × Attributes × ℕ :=
  (.ok (r.value, r.extensions), r.attributes, r.bytes.length)

section
variable {path : Path} {x : Session} {recs : List (Rec logVersion)}

theorem held_nodup (recs : List (Rec logVersion)) :
    (((liveRecs recs).map fun y => (y.1, y.2.2.holds)).map Prod.fst).Nodup := by
  rw [List.map_map]
  exact live_nodup _

theorem Serves.record (h : Serves x.disk x.store path recs) (key : Bytes) :
    x.record key = ((liveRecs recs).map fun y => (y.1, y.2.2.holds)).lookup key := by
  unfold Session.record
  cases he : x.store.index.get key with
  | none =>
    have hnot := h.get_none.mp he
    rw [contents_keys] at hnot
    refine (lookup_eq_none.mpr ?_).symm
    rw [List.map_map]
    exact hnot
  | some e =>
    obtain ⟨y, hy, rfl⟩ := h.get_some he
    have hread := exec_readRecordAndExtensionsAt (h.image.storedAt (liveRecs_mem hy).1) (by decide)
    refine Eq.trans ?_ ((lookup_eq_some (held_nodup recs)).mpr (List.mem_map_of_mem hy)).symm
    change some ((Disk.exec (x.store.log.readRecordAndExtensionsAt y.1 y.2.bytes.length) x.disk).1, _, _) = _
    rw [hread]
    rfl

theorem Index.Same.totalSize {idx : Index} {fields : List Bytes} (h : idx.Same (replay fields recs)) :
    idx.totalSize = ((liveRecs recs).map fun y => y.2.2.bytes.length).sum := by
  have henum := lists_entries (enumerate idx.entries)
  rw [enumerate_toFinmap, h.entries] at henum
  have hperm := ((henum.perm (replay_lists fields recs)).map fun y => y.2.storedSize).sum_eq
  rw [List.map_map, List.map_map] at hperm
  rw [Index.totalSize, h.entries]
  exact hperm

/-- The live records are part of the log. -/
theorem liveRecs_length_le (recs : List (Rec logVersion)) :
    ((liveRecs recs).map fun y => y.2.2.bytes.length).sum ≤ (concat recs).length := by
  have hsub := ((liveRecs_sublist recs).map Prod.snd).map fun r => r.bytes.length
  rw [placed_map_snd, List.map_map, List.map_map] at hsub
  rw [concat_length]
  exact hsub.sum_le_sum fun _ _ => Nat.zero_le _

theorem concat_compacted_length (recs : List (Rec logVersion)) :
    (concat (compacted recs)).length = ((liveRecs recs).map fun y => y.2.2.bytes.length).sum := by
  rw [concat_length, compacted, List.map_map]
  refine congrArg List.sum (List.map_congr_left fun y _ => ?_)
  exact y.2.2.rewritten_length (by decide)

/-- **`Compact` always succeeds and loses nothing.** -/
theorem compact_lossless (h : Reachable path x) :
    ∃ s' d', Disk.exec x.store.compact x.disk = ((.ok (), s'), d') ∧
      (∀ key, Session.record ⟨s', d'⟩ key = x.record key) ∧
      (∀ key r, x.record key = some r → ∃ valueAndExtensions, r.1 = .ok valueAndExtensions) ∧
      (∀ (β : Type) (fn : Bytes → Bytes → β → β × Option Err) (b : β),
        (Disk.exec (s'.forEach fn b) d').1.1 = (Disk.exec (x.store.forEach fn b) x.disk).1.1) ∧
      s'.index.keysSortedByOffset.1 = x.store.index.keysSortedByOffset.1 ∧
      (∃ recs : List (Rec logVersion), d'.bytesAt path = some (currentHeader ++ concat recs) ∧
        recs.map Rec.key = x.store.index.keysSortedByOffset.1 ∧ (recs.map Rec.key).Nodup ∧
        ∀ r ∈ recs, r.deleted = false) ∧
      ∃ b b', x.disk.bytesAt path = some b ∧ d'.bytesAt path = some b' ∧
        b'.length = logHeaderSize + x.store.index.totalSize ∧ b'.length ≤ b.length := by
  obtain ⟨recs, hserves⟩ := h.serves
  obtain ⟨s', d', hexec, hserves', -⟩ := exec_compact hserves
  have hrecord' := fun key => Serves.record (x := ⟨s', d'⟩) hserves' key
  have hheld : ((liveRecs (compacted recs)).map fun y => (y.1, y.2.2.holds)) =
      (liveRecs recs).map fun y => (y.1, y.2.2.holds) := by
    refine liveRecs_compacted_map Rec.holds Rec.holds (fun r => ?_) recs
    rw [Rec.holds, Rec.holds, r.rewritten_length (by decide), r.rewritten_value, r.rewritten_extensions,
      r.rewritten_attributes]
  have hkeys : ∀ recs : List (Rec logVersion), (liveRecs recs).map Prod.fst =
      ((liveRecs recs).map fun y => (y.1, y.2.2.holds)).map Prod.fst := by
    intro recs
    rw [List.map_map]
    rfl
  refine ⟨s', d', hexec, fun key => ?_, fun key r hr => ?_, fun β fn b => ?_, ?_, ?_, ?_⟩
  · rw [hrecord', hheld, hserves.record]
  · rw [hserves.record] at hr
    obtain ⟨y, -, heq⟩ := List.mem_map.mp ((lookup_eq_some (held_nodup recs)).mp hr)
    cases heq
    exact ⟨_, rfl⟩
  · obtain ⟨s1, h1, -⟩ := exec_forEach hserves fn b
    obtain ⟨s2, h2, -⟩ := exec_forEach hserves' fn b
    rw [h1, h2, contents_compacted]
  · rw [hserves'.sortedKeys, hserves.sortedKeys, hkeys, hkeys, hheld]
  · refine ⟨compacted recs, hserves'.bytesAt, ?_, ?_, fun r hr => ?_⟩
    · rw [compacted_keys, hserves.sortedKeys]
    · rw [compacted_keys]
      exact live_nodup _
    · obtain ⟨y, -, rfl⟩ := List.mem_map.mp hr
      exact y.2.2.rewritten_deleted
  · have hlen := concat_compacted_length recs
    have hle := liveRecs_length_le recs
    refine ⟨_, _, hserves.bytesAt, hserves'.bytesAt, ?_, ?_⟩
    · rw [List.length_append, currentHeader_length, hlen, hserves.index.totalSize]
    · rw [List.length_append, List.length_append]
      omega

theorem compact_lossless_busy : ∃ x, worked "db" .zero busyCalls = some x ∧
    x.store.index.keysSortedByOffset.1 = [[1], [7]] ∧ (x.record [1]).map Prod.fst = some (.ok ([5, 6], [])) ∧
    ∃ s' d', Disk.exec x.store.compact x.disk = ((.ok (), s'), d') ∧
      (∀ key, Session.record ⟨s', d'⟩ key = x.record key) ∧ s'.index.keysSortedByOffset.1 = [[1], [7]] ∧
      ∃ b b', x.disk.bytesAt "db" = some b ∧ d'.bytesAt "db" = some b' ∧
        b'.length = logHeaderSize + x.store.index.totalSize ∧ b'.length < b.length := by
  obtain ⟨x, hx, hreach⟩ := worked_reachable (zero_accepted (by decide)) (busyCalls_accepted "db")
  have hkeys : (worked "db" .zero busyCalls).map (fun x => x.store.index.keysSortedByOffset.1) = some [[1], [7]] := by
    decide +kernel
  have hrecord : (worked "db" .zero busyCalls).map (fun x => (x.record [1]).map Prod.fst) =
      some (some (.ok ([5, 6], []))) := by
    decide +kernel
  have hsizes : (worked "db" .zero busyCalls).map (fun x =>
      (x.store.index.totalSize, (x.disk.bytesAt "db").map List.length)) = some (69, some 182) := by
    decide +kernel
  rw [hx, Option.map_some, Option.some.injEq] at hkeys hrecord hsizes
  obtain ⟨hsize, hlen⟩ := Prod.mk.inj hsizes
  obtain ⟨s', d', hexec, hrecords, -, -, hsorted, -, b, b', hb, hb', hlen', -⟩ := compact_lossless hreach
  rw [hb, Option.map_some, Option.some.injEq] at hlen
  refine ⟨x, hx, hkeys, hrecord, s', d', hexec, hrecords, hsorted.trans hkeys, b, b', hb, hb', hlen', ?_⟩
  rw [hlen', hsize, hlen]
  decide

end

end AppendStore
