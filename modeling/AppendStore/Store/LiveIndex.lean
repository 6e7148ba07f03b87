import AppendStore.Store.FailedAppend

/-! # The index of a running store

`Reachable path x`: the session `x` came from a successful `Open` on any disk, whatever bytes its log
held, by calls of clients. Such a store serves the records of its log (`Reachable.serves`), so its
index is the one that `recover` would build from the file.
-/

namespace AppendStore
open Library
set_option autoImplicit false

/-- The states of a store that was opened and then called any number of times. -/
def Reachable (path : Path) (x : Session) : Prop :=
  ∃ (options : Options) (d : Disk) (s : Store) (d' : Disk) (calls : List Call),
    d.Sound ∧ FeaturesKnown d path ∧ Disk.exec (openStore path options) d = (.ok s, d') ∧
      (∀ c ∈ calls, c.Accepted path) ∧ x = final (Session.call path) ⟨s, d'⟩ calls

section
variable {path : Path} {x : Session}

theorem Reachable.serves (h : Reachable path x) : ∃ recs, Serves x.disk x.store path recs := by
  obtain ⟨options, d, s, d', calls, hs, hknown, hopen, hcalls, rfl⟩ := h
  obtain ⟨recs, hserves, -⟩ := openStore_serves hs hknown hopen
  obtain ⟨km, hshows⟩ := exists_shows recs
  have hstep : ∀ c ∈ calls, ∀ y, (∃ m, Refines path y m) → ∃ m, Refines path (y.call path c).2 m := by
    rintro c hc y ⟨m, hm⟩
    exact ⟨_, (call_refines c (hcalls c hc) hm).2⟩
  obtain ⟨m, recs', hserves', -⟩ := final_invariant calls hstep (s := ⟨s, d'⟩) ⟨km, recs, hserves, hshows⟩
  exact ⟨recs', hserves'⟩

theorem Reachable.call (h : Reachable path x) {c : Call} (hc : c.Accepted path) :
    Reachable path (x.call path c).2 := by
  obtain ⟨options, d, s, d', calls, hs, hknown, hopen, hcalls, rfl⟩ := h
  refine ⟨options, d, s, d', calls ++ [c], hs, hknown, hopen, ?_, ?_⟩
  · intro c' hc'
    rcases List.mem_append.mp hc' with hmem | hmem
    · exact hcalls c' hmem
    · rw [List.mem_singleton.mp hmem]
      exact hc
  · rw [final_append]
    rfl

theorem worked_reachable {options : Options} (hacc : options.Accepted path) {calls : List Call}
    (hcalls : ∀ c ∈ calls, c.Accepted path) : ∃ x, worked path options calls = some x ∧ Reachable path x := by
  obtain ⟨x, hx, -⟩ := opened_blank hacc
  exact ⟨_, by rw [worked, hx, Option.map_some], options, .blank, x.store, x.disk, calls, Disk.blank_sound,
    blank_featuresKnown path, opened_eq_some.mp hx, hcalls, rfl⟩

theorem blank_serves (path : Path) (hpath : path ≠ "") :
    ∃ x, Reachable path x ∧ Serves x.disk x.store path [] := by
  obtain ⟨x, hx, hserves⟩ := opened_blank (zero_accepted hpath)
  exact ⟨x, ⟨.zero, .blank, x.store, x.disk, [], Disk.blank_sound, blank_featuresKnown path, opened_eq_some.mp hx,
    fun _ hc => absurd hc List.not_mem_nil, rfl⟩, hserves⟩

/-- **The live index is the replayed one.** `recover`, run from an empty index over the log of the store
as it is, succeeds without changing the disk and builds the same entries, the same indexed fields and
the same secondary sets; and the log ends where the store would write next. -/
theorem live_index_eq_replay (h : Reachable path x) :
    (∃ s', Disk.exec (newStore x.store.options x.store.lock x.store.log).recover x.disk =
        ((.ok (), s'), x.disk) ∧ x.store.index.Same s'.index) ∧
      ∃ b, x.disk.bytesAt path = some b ∧ x.store.log.writePos = b.length := by
  obtain ⟨recs, hserves⟩ := h.serves
  have himage := hserves.image
  have hpos : x.store.log.writePos = (x.disk.files x.store.log.file.inode).content.length := by
    rw [himage.writePos, himage.content, List.length_append, himage.headerLength]
  have hit := exec_iterate_complete recoverRecord_eq himage.isOpen hpos himage.versionEq himage.headerLength
    (by rw [himage.content, List.append_nil])
    (newIndex x.store.options.indexedFields, newLRUCache x.store.options.cacheSize.toNat) rfl
  refine ⟨⟨_, exec_recover_of_iterate hit, hserves.index⟩, _, hserves.bytesAt, ?_⟩
  rw [hpos, himage.content]

theorem live_index_eq_replay_busy :
    ∃ x, worked "db" { Options.zero with indexedFields := [[9]] } (busyCalls ++ [.compact, .delete [7]]) = some x ∧
      x.store.index.keysSortedByOffset.1 = [[1]] ∧ x.store.keysBy [9] [8] = {[1]} ∧
      (∃ s', Disk.exec (newStore x.store.options x.store.lock x.store.log).recover x.disk =
        ((.ok (), s'), x.disk) ∧ x.store.index.Same s'.index) ∧
      ∃ b, x.disk.bytesAt "db" = some b ∧ x.store.log.writePos = b.length := by
  have hacc : ({ Options.zero with indexedFields := [[9]] } : Options).Accepted "db" :=
    ⟨by decide, by norm_num [Options.zero, Options.withDefaults], by simp [Options.zero, Options.withDefaults]⟩
  have hcalls : ∀ c ∈ busyCalls ++ [.compact, .delete [7]], c.Accepted "db" := by simp [busyCalls, Call.Accepted]
  obtain ⟨x, hx, hreach⟩ := worked_reachable hacc hcalls
  have hholds : (worked "db" { Options.zero with indexedFields := [[9]] } (busyCalls ++ [.compact, .delete [7]])).map
      (fun x => (x.store.index.keysSortedByOffset.1, x.store.keysBy [9] [8])) = some ([[1]], {[1]}) := by
    decide +kernel
  rw [hx, Option.map_some, Option.some.injEq] at hholds
  obtain ⟨hkeys, hby⟩ := Prod.mk.inj hholds
  exact ⟨x, hx, hkeys, hby, live_index_eq_replay hreach⟩

end

end AppendStore
