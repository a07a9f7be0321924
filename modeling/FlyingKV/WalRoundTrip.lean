import FlyingKV.WalIds

set_option autoImplicit false

/-!
# What was appended is loaded

Over a history of appends and restarts the directory holds every accepted entry,
and a final restart delivers them all, provided that the memory pool can serve
each of its reads.
-/
namespace FlyingKV.Wal
open FramedStream EventRun

def appendedEntry : WalEvent × WalReply → Option WalEntry
  | (.append (some content), .appended r) => if r.rc = .OK then some ⟨r.entryId, content⟩ else none
  | _ => none

/-- The returned ids with the bytes that `Encode` produced, in append order. -/
def appendedEntries (tr : List (WalEvent × WalReply)) : List WalEntry := tr.filterMap appendedEntry

def NoTruncate : WalEvent → Prop
  | .truncate _ => False
  | _ => True

instance decidableNoTruncate : ∀ e, Decidable (NoTruncate e)
  | .append _ => isTrue trivial
  | .truncate _ => isFalse id
  | .restart _ _ => isTrue trivial

/-- Every read of every segment asks for a batch and the carried part of a record, and these
stay a page below the 32-bit limit. -/
def ReadsFit (conf : LogCleanWalConfig) (l : Log) : Prop :=
  ∀ i s, l.seg i = some s → ∀ j, j * conf.readBatchSize ≤ streamSize (s.map Rec.frame) →
    conf.readBatchSize + leftoverAt (j * conf.readBatchSize) (s.map Rec.frame) ≤ 2 ^ 32 - 4096

theorem logFits_iff (conf : LogCleanWalConfig) (l : Log) : LogFits conf l ↔ ReadsFit conf l := by
  have hb : 0 < conf.readBatchSize := lt_of_lt_of_le (by decide) conf.batchSize_ge
  simp only [LogFits, SegmentFits, Fits, ReadsFit, Nat.zero_add, MemPool.allocFits_iff hb]

/-- A restart delivers exactly `es`, whose ids are consecutive, and the next entry gets the id
after the last. -/
structure Delivers (judge : Judge) (errno : ℕ) (conf : LogCleanWalConfig) (d : WalDir)
    (es : List WalEntry) : Prop where
  result : (reopen judge errno conf d []).value.result = .returned .ok
  batches : (reopen judge errno conf d []).value.batches.flatten = es
  consecutive : es.IsChain (fun a b => b.id = a.id + 1)
  next : ∀ content, judge content = .accepted → Accepts conf content →
    Room (reopen judge errno conf d []).value.wal content →
    (appendEntry (reopen judge errno conf d []).value.wal (some content)
      (reopen judge errno conf d []).disk []).value.2 =
        .returned ⟨.OK, "", (es.getLast?.map WalEntry.id).getD minEntryId + 1⟩

section
variable {judge : Judge}

theorem reopen_delivers {errno : ℕ} {conf : LogCleanWalConfig} {d : WalDir} {l : Log}
    (h : Reopened judge conf l (reopen judge errno conf d [])) :
    Delivers judge errno conf d (l.entries.map Rec.entry) where
  result := h.result
  batches := h.batches
  consecutive := (List.isChain_map _).mpr h.ready.wf.consecutive
  next content hj ha room := by
    have hlast : ((l.entries.map Rec.entry).getLast?.map WalEntry.id).getD minEntryId = lastId l := by
      rw [List.getLast?_map, Option.map_map]
      rfl
    rw [hlast]
    rcases appendEntry_run h.ready room hj with ⟨-, happ⟩ | ⟨hno, -⟩
    · exact happ.result
    · exact absurd (by rw [h.conf_eq]; exact ha) hno

/-- The directory holds exactly what was appended. -/
def HoldsAppended (judge : Judge) (s : WalSystem) (tr : List (WalEvent × WalReply)) : Prop :=
  ∃ l, Ready judge s.wal s.dir l 0 ∧ l.entries.map Rec.entry = appendedEntries tr

theorem holdsAppended_step {s u : WalSystem} {tr : List (WalEvent × WalReply)} {e : WalEvent}
    {r : WalReply} (hI : HoldsAppended judge s tr) (hP : Admits judge s e ∧ NoTruncate e)
    (hs : walStep judge s e = some (u, r)) : HoldsAppended judge u (tr ++ [(e, r)]) := by
  obtain ⟨l, hready, hl⟩ := hI
  have hsnoc : appendedEntries (tr ++ [(e, r)]) = appendedEntries tr ++ (appendedEntry (e, r)).toList := by
    cases hr : appendedEntry (e, r) <;> simp [appendedEntries, hr]
  unfold HoldsAppended
  rw [hsnoc, ← hl]
  cases walStep_spec hready hP.1 hs with
  | @refused eb _ not_ok =>
    refine ⟨l, hready, ?_⟩
    cases eb <;> simp [appendedEntry, not_ok]
  | @appended content _ ready _ _ =>
    exact ⟨_, ready, by simp [appendedEntry, nextRec, Rec.entry]⟩
  | missing _ => exact hP.2.elim
  | pending _ _ _ _ _ => exact hP.2.elim
  | cut _ _ _ _ _ _ => exact hP.2.elim
  | restarted _ ready _ _ _ =>
    rw [recover_of_lt hready.wf.first_pos] at ready
    exact ⟨l, ready, by simp [appendedEntry]⟩

/-- Over appends and restarts with any configurations, a final restart delivers exactly what was
appended if and only if each of its reads fits. -/
theorem append_load_roundTrip {errno : ℕ} {conf : LogCleanWalConfig} {es : List WalEvent}
    {s : WalSystem} {rs : List WalReply}
    (hP : AlongHistory judge errno conf (fun s e => Admits judge s e ∧ NoTruncate e) es)
    (hrun : walHistory judge errno conf es = some (s, rs)) :
    ∃ l, Holds s.dir l ∧ l.entries.map Rec.entry = appendedEntries (es.zip rs.tail) ∧
      ∀ errno' conf', Delivers judge errno' conf' s.dir (appendedEntries (es.zip rs.tail)) ↔
        ReadsFit conf' l := by
  obtain ⟨bss, rs', rfl, -, l, hready, hl⟩ := history_invariant (I := HoldsAppended judge)
    (fun _ hready => ⟨_, hready, rfl⟩) (fun _ _ _ _ _ => holdsAppended_step) hP hrun
  refine ⟨l, hready.holds, hl, fun errno' conf' => ?_⟩
  have hdrop : l.dropThrough 0 = l := SegmentedLog.dropThrough_of_lt hready.wf.first_pos
  have hloads : Loads conf' l 0 ↔ ReadsFit conf' l := by
    rw [Loads, hdrop, logFits_iff]
    exact ⟨fun h => h (lt_of_lt_of_le hready.wf.first_pos l.first_le_current), fun h _ => h⟩
  change Delivers judge errno' conf' s.dir (appendedEntries (es.zip rs')) ↔ _
  rw [← hl]
  rcases hready.reopen errno' conf' with ⟨hfit, ho⟩ | ⟨hfit, hc⟩
  · rw [recover_of_lt hready.wf.first_pos] at ho
    exact ⟨fun _ => hloads.mp hfit, fun _ => reopen_delivers ho⟩
  · refine ⟨fun h => ?_, fun h => absurd (hloads.mpr h) hfit⟩
    have hres := h.result
    rw [hc] at hres
    cases hres

end

theorem append_load_roundTrip_small : ∃ s rs, walHistory acceptAll 0 smallConf
    [.append (some [7]), .restart 0 smallConf, .append (some [8, 9])] = some (s, rs) ∧
      Delivers acceptAll 0 smallConf s.dir [⟨2, [7]⟩, ⟨3, [8, 9]⟩] := by
  have hrs : (walHistory acceptAll 0 smallConf
      [.append (some [7]), .restart 0 smallConf, .append (some [8, 9])]).map (fun o => appendedEntries
        ([.append (some [7]), .restart 0 smallConf, .append (some [8, 9])].zip o.2.tail)) =
      some [⟨2, [7]⟩, ⟨3, [8, 9]⟩] := by
    decide +kernel
  obtain ⟨⟨s, rs⟩, hrun, he⟩ := Option.map_eq_some_iff.mp hrs
  obtain ⟨l, -, hentries, h⟩ := append_load_roundTrip (by decide +kernel) hrun
  rw [he] at hentries h
  refine ⟨s, rs, hrun, (h 0 smallConf).mpr ((logFits_iff _ _).mp (logFits_of_le (fun r hr => ?_) (by decide)))⟩
  have hmem := List.mem_map_of_mem (f := Rec.entry) hr
  rw [hentries] at hmem
  have hsmall : ∀ e ∈ [WalEntry.mk 2 [7], ⟨3, [8, 9]⟩],
      smallConf.readBatchSize + (e.content.length + entryExtraFieldsSize) ≤ 2 ^ 32 - 4096 := by
    decide
  exact hsmall _ hmem

/-- The largest batch size that the constructor admits. -/
def hugeConf : LogCleanWalConfig :=
  ⟨1, 100, 0xFFFFFFFF, smallConf.segmentSize_ge, smallConf.segmentSize_lt, by decide, by decide⟩

/-- The constructor admits the batch size, an entry is appended, and loading it ends the process. -/
theorem load_of_huge_batch :
    (walHistory acceptAll 0 hugeConf [.append (some [7])]).map
      (fun o => (o.2, (reopen acceptAll 0 hugeConf o.1.dir []).value.result)) =
        some ([.restarted .ok [], .appended ⟨.OK, "", 2⟩], .crashed .badAlloc) := by
  decide +kernel

end FlyingKV.Wal
