import FlyingKV.MiniKvCheckpoint

set_option autoImplicit false

/-!
# Durability

What a restart finds is the snapshot and the part of the log that is left. Together they
give the memory of the stopped process as long as every operation that the snapshot has not
seen is still in the log.
-/
namespace FlyingKV.MiniKv
open ByteOrder CommonUtils DecimalText FileDir FramedStream OrderedMap LastWriter Wal
open Checkpoint EventRun

/-- A server with two ids of its history: the newest one at the last fork, and the newest one that
the snapshot on disk has seen. -/
structure Watched where
  server : Server
  forkId : ℕ
  covered : ℕ

/-- The ids after a step: a fork notes the newest id, and a new meta file the one of the fork. -/
def Watched.after (w : Watched) (u : Server) (l : Label) : Watched where
  server := u
  forkId := if l = .forked then w.server.wal.wal.currentEntryIdx else w.forkId
  covered := if u.cpDir.get .cpMeta = w.server.cpDir.get .cpMeta then w.covered else w.forkId

def CheckPc.cursor? : CheckPc → Option Iter
  | .prepared _ cur => some cur
  | _ => none

def CheckPc.toTruncate : CheckPc → Option ℕ
  | .truncating maxId => some maxId
  | _ => none

def CheckPc.traveller? : CheckPc → Option Traveller
  | .forked t => some t
  | .waiting t => some t
  | _ => none

/-- No deleted key has a NUL byte; the traveller of a fork stands at the first element; and neither
a truncation nor the clean-up of a restart reaches the first entry that the snapshot has not
seen. -/
def Sheltered (w : Watched) : Action → Prop
  | .advance r => ∀ op ∈ (w.server.requests[r]?).bind ReqPc.toAppend, op.NulFree
  | .check _ =>
    (∀ cur ∈ w.server.checker.cursor?, cur = w.server.kvs.begin) ∧
      ∀ maxId ∈ w.server.checker.toTruncate, ∀ i ∈ w.server.wal.wal.mpEntriesIdSegId maxId,
        ∀ j ∈ w.server.wal.wal.mpEntriesIdSegId (w.covered + 1),
          i < j ∨ w.server.wal.wal.mpEntriesIdSegId w.server.wal.wal.currentEntryIdx = some i
  | .restart _ errnoWal _ => ∀ j ∈ w.server.wal.wal.mpEntriesIdSegId (w.covered + 1),
      getUncompletedTruncSegmentsMaxId errnoWal w.server.wal.dir < j
  | _ => True

instance decidableSheltered (w : Watched) : ∀ a, Decidable (Sheltered w a)
  | .invoke _ => isTrue trivial
  | .advance _ => inferInstanceAs (Decidable (∀ op ∈ _, Op.NulFree op))
  | .check _ => inferInstanceAs (Decidable ((∀ cur ∈ _, cur = _) ∧ ∀ maxId ∈ w.server.checker.toTruncate,
      ∀ i ∈ w.server.wal.wal.mpEntriesIdSegId maxId, ∀ j ∈ _, i < j ∨ _ = some i))
  | .stop => isTrue trivial
  | .restart _ _ _ => inferInstanceAs (Decidable (∀ j ∈ _, _ < j))

section
variable (codec : EntryCodec)

def watch (w : Watched) (a : Action) : Option (Watched × Label) :=
  (step codec w.server a).map (fun o => (w.after o.1 o.2, o.2))

/-- A watched run of a server that is started on empty directories; ids are given out from 2 on. -/
def watchHistory (conf : KVConfig) (errnoCp errnoWal : ℕ) (es : List Action) :
    Option (Watched × List Label) :=
  (start codec (construct conf Dir.empty Dir.empty) errnoCp errnoWal).bind
    (fun o => run (watch codec) ⟨o.1, 1, 1⟩ es)

/-- `P` at every step of a watched run after the first start. -/
def AlongWatched (conf : KVConfig) (errnoCp errnoWal : ℕ) (P : Watched → Action → Prop)
    (es : List Action) : Prop :=
  ∀ o ∈ start codec (construct conf Dir.empty Dir.empty) errnoCp errnoWal,
    Along (watch codec) P ⟨o.1, 1, 1⟩ es

instance decidableAlongWatched (conf : KVConfig) (errnoCp errnoWal : ℕ) (P : Watched → Action → Prop)
    [∀ w a, Decidable (P w a)] (es : List Action) :
    Decidable (AlongWatched codec conf errnoCp errnoWal P es) :=
  inferInstanceAs (Decidable (∀ o ∈ _, Along (watch codec) P ⟨Prod.fst o, 1, 1⟩ es))

/-- `ops` are the operations accepted so far, in all processes; their ids count from 2. -/
structure Durable (w : Watched) (st : Store) (ops : List Op) : Prop where
  nul : ∀ op ∈ ops, op.NulFree
  last : lastId st.log = 1 + ops.length
  log : ∃ j ≤ w.covered - 1, logOps codec st.log = (numbered 2 ops).drop j
  covered_pos : 1 ≤ w.covered
  covered_le : w.covered ≤ 1 + ops.length
  snap_le : st.snap.id ≤ w.covered
  snap : (loadedKvs codec st.snap).find = (applyOps .empty (ops.take (w.covered - 1))).find
  memory : ∃ applied, ops = applied ++ (inFlight w.server).toList.map Prod.snd ∧
    w.server.kvs.find = (applyOps .empty applied).find
  apply_le : w.server.applyId ≤ 1 + ops.length
  appended : ∀ (r : ℕ) op id, w.server.requests[r]? = some (ReqPc.appended op id) → id ≤ 1 + ops.length
  taken : ∀ id ∈ w.server.checker.maxId?, id ≤ 1 + ops.length
  forked : ∀ t ∈ w.server.checker.traveller?, t.maxId ≤ w.forkId ∧ w.covered ≤ w.forkId ∧
    w.forkId ≤ 1 + ops.length ∧ ∀ version,
      (loadedKvs codec (t.snapshot version)).find = (applyOps .empty (ops.take (w.forkId - 1))).find
  saved : ∀ id ∈ w.server.checker.savedId?, id ≤ w.covered

end

section
variable {codec : EntryCodec} {w : Watched} {s u : Server} {st : Store} {ops : List Op} {l : Label}
variable {lg : Log} {r errnoWal : ℕ} {op : Op} {conf : KVConfig} {wal : WalSystem}

/-- Watching does not disturb. -/
theorem run_watch {es : List Action} {ls : List Label} {w v : Watched}
    (h : run (watch codec) w es = some (v, ls)) : run (step codec) w.server es = some (v.server, ls) := by
  induction es generalizing w ls with
  | nil =>
    cases h
    rfl
  | cons a es ih =>
    obtain ⟨w', l, ls', hs, hr, rfl⟩ := run_cons.mp h
    obtain ⟨o, ho, he⟩ := Option.map_eq_some_iff.mp hs
    cases he
    exact run_cons.mpr ⟨o.1, o.2, ls', ho, ih hr, rfl⟩

theorem numbered_append (i : ℕ) (ops : List Op) (op : Op) :
    numbered i (ops ++ [op]) = numbered i ops ++ [⟨i + ops.length, op⟩] := by
  induction ops generalizing i with
  | nil => rfl
  | cons a ops ih =>
    rw [List.cons_append, numbered, ih, numbered, List.cons_append, List.length_cons]
    congr 4
    omega

/-! ## The snapshot of a map -/

theorem find_onCheckpointLoadEntry (kvs : Kvs) (es : List Entry) :
    (onCheckpointLoadEntry kvs es).find = storeAll kvs.find (es.map (fun e => (e.key, some e))) := by
  induction es generalizing kvs with
  | nil => rfl
  | cons e es ih =>
    rw [List.map_cons]
    exact (ih _).trans (by rw [kvs.find_assign e.key e]; rfl)

theorem decode_serialized {es : List Entry} (h : ∀ e ∈ es, e.key ≠ []) :
    (es.map codec.serialize).filterMap (cpDecode codec) = es := by
  induction es with
  | nil => rfl
  | cons e es ih =>
    rw [List.map_cons, List.filterMap_cons_some (cpDecode_serialize codec (h e List.mem_cons_self)),
      ih fun e' he' => h e' (List.mem_cons_of_mem _ he')]

theorem find_loaded_values {kvs : Kvs} (h : KvsOk codec kvs) (maxId : ℕ) (version : UInt8) :
    (loadedKvs codec (Traveller.snapshot
      ⟨maxId, kvs.values.map (fun e => some (codec.serialize e))⟩ version)).find = kvs.find := by
  have hkeys : ∀ e ∈ kvs.values, e.key ≠ [] := fun e he => by
    obtain ⟨n, hn, rfl⟩ := List.mem_map.mp he
    exact (h n hn).2.1
  rw [loadedKvs, Traveller.snapshot, encoded_serialized, decode_serialized hkeys,
    find_onCheckpointLoadEntry, NodeMap.find_empty, kvs.find_eq_storeAll, NodeMap.values, List.map_map]
  congr 1
  refine List.map_congr_left fun n hn => ?_
  rw [Function.comp_apply, (h n hn).1]

/-! ## What a clean-up leaves of the log -/

theorem exists_mem_numbered {i id : ℕ} {ops : List Op} (h₁ : i ≤ id) (h₂ : id < i + ops.length) :
    ∃ p ∈ numbered i ops, p.id = id := by
  induction ops generalizing i with
  | nil =>
    simp only [List.length_nil] at h₂
    omega
  | cons op ops ih =>
    rw [List.length_cons] at h₂
    rcases Nat.eq_or_lt_of_le h₁ with rfl | hlt
    · exact ⟨⟨i, op⟩, List.mem_cons_self, rfl⟩
    · obtain ⟨p, hp, hid⟩ := ih hlt (by omega)
      exact ⟨p, List.mem_cons_of_mem _ hp, hid⟩

theorem mem_logOps_of_mem (hlog : ∀ r ∈ lg.entries, ∃ op : Op, op.Sized codec ∧ r.content = op.encode codec) {r : Rec}
    (hr : r ∈ lg.entries) : ∃ p ∈ logOps codec lg, p.id = r.id := by
  obtain ⟨op, hop, hcontent⟩ := hlog r hr
  exact ⟨⟨r.id, op⟩, List.mem_filterMap.mpr ⟨r.entry, List.mem_map_of_mem hr,
    loadedEntry_encode hop hcontent⟩, rfl⟩

theorem logOps_recover_suffix (lg : Log) (b : ℕ) : logOps codec (recover lg b) <:+ logOps codec lg := by
  refine List.IsSuffix.filterMap _ (List.IsSuffix.map _ ?_)
  unfold recover
  split_ifs
  · exact lg.entries_dropThrough_suffix b
  · exact List.nil_suffix

/-- If the entry behind the id `c` is left, so are all operations behind `c`. -/
theorem logOps_recover (hlog : ∀ r ∈ lg.entries, ∃ op : Op, op.Sized codec ∧ r.content = op.encode codec) {c j b : ℕ}
    (hops : logOps codec lg = (numbered 2 ops).drop j) (hj : j ≤ c - 1) (hc : 1 ≤ c)
    (hkeep : ∀ r ∈ lg.entries, r.id = c + 1 → r ∈ (recover lg b).entries) (hle : c ≤ 1 + ops.length) :
    ∃ j' ≤ c - 1, logOps codec (recover lg b) = (numbered 2 ops).drop j' := by
  have hsuf : logOps codec (recover lg b) <:+ numbered 2 ops :=
    (logOps_recover_suffix lg b).trans (hops ▸ List.drop_suffix _ _)
  have hdrop := List.suffix_iff_eq_drop.mp hsuf
  refine ⟨_, ?_, hdrop⟩
  rw [length_numbered] at hdrop ⊢
  rcases Nat.eq_or_lt_of_le hle with heq | hlt
  · omega
  · -- the entry with the id `c + 1` exists, and it is left
    obtain ⟨p, hp, hpid⟩ : ∃ p ∈ logOps codec lg, p.id = c + 1 := by
      rw [hops, drop_numbered]
      exact exists_mem_numbered (by omega) (by rw [List.length_drop]; omega)
    obtain ⟨-, r, hr, hrid⟩ := mem_logOps hlog hp
    obtain ⟨q, hq, hqid⟩ := mem_logOps_of_mem (fun r hr => hlog r (mem_recover_entries hr))
      (hkeep r hr (hrid.trans hpid))
    rw [hdrop, drop_numbered] at hq
    have := (mem_numbered hq).1
    omega

/-! ## Steps -/

theorem after_same (hl : l ≠ .forked) (hm : u.cpDir.get .cpMeta = w.server.cpDir.get .cpMeta) :
    w.after u l = ⟨u, w.forkId, w.covered⟩ := by
  rw [Watched.after, if_neg hl, if_pos hm]

theorem after_new (hl : l ≠ .forked) (hm : u.cpDir.get .cpMeta ≠ w.server.cpDir.get .cpMeta) :
    w.after u l = ⟨u, w.forkId, w.forkId⟩ := by
  rw [Watched.after, if_neg hl, if_neg hm]

/-- A step that changes neither the store nor the map. -/
theorem Durable.keep (h : Durable codec w st ops) (flight : inFlight u = inFlight w.server)
    (kvs : u.kvs = w.server.kvs) (apply_le : u.applyId ≤ 1 + ops.length)
    (appended : ∀ (r : ℕ) op id, u.requests[r]? = some (ReqPc.appended op id) → id ≤ 1 + ops.length)
    (taken : ∀ id ∈ u.checker.maxId?, id ≤ 1 + ops.length)
    (forked : ∀ t ∈ u.checker.traveller?, t ∈ w.server.checker.traveller?)
    (saved : ∀ id ∈ u.checker.savedId?, id ≤ w.covered) :
    Durable codec ⟨u, w.forkId, w.covered⟩ st ops where
  nul := h.nul
  last := h.last
  log := h.log
  covered_pos := h.covered_pos
  covered_le := h.covered_le
  snap_le := h.snap_le
  snap := h.snap
  memory := by
    change ∃ applied, ops = applied ++ (inFlight u).toList.map Prod.snd ∧ u.kvs.find = _
    rw [flight, kvs]
    exact h.memory
  apply_le := apply_le
  appended := appended
  taken := taken
  forked t ht := h.forked t (forked t ht)
  saved := saved

/-- One request moves on, not to the point behind its append. -/
theorem Durable.moveTo (h : Durable codec w st ops) {pc₀ pc : ReqPc} (hr : w.server.requests[r]? = some pc₀)
    (hpc : ∀ op id, pc ≠ .appended op id) (requests : u.requests = w.server.requests.set r pc)
    (flight : inFlight u = inFlight w.server) (kvs : u.kvs = w.server.kvs) (apply_le : u.applyId ≤ 1 + ops.length)
    (checker : u.checker = w.server.checker) : Durable codec ⟨u, w.forkId, w.covered⟩ st ops := by
  refine h.keep flight kvs apply_le (fun r' op id hr' => ?_) (checker ▸ h.taken) (checker ▸ fun _ => id)
    (checker ▸ h.saved)
  rw [requests, get_set hr] at hr'
  split_ifs at hr'
  · exact absurd (Option.some.inj hr') (hpc op id)
  · exact h.appended r' op id hr'

theorem Durable.check (h : Durable codec w st ops) (requests : u.requests = w.server.requests)
    (flight : inFlight u = inFlight w.server) (kvs : u.kvs = w.server.kvs)
    (apply_eq : u.applyId = w.server.applyId) (taken : ∀ id ∈ u.checker.maxId?, id ≤ 1 + ops.length)
    (forked : ∀ t ∈ u.checker.traveller?, t ∈ w.server.checker.traveller?)
    (saved : ∀ id ∈ u.checker.savedId?, id ≤ w.covered) :
    Durable codec ⟨u, w.forkId, w.covered⟩ st ops :=
  h.keep flight kvs (apply_eq ▸ h.apply_le) (requests ▸ h.appended) taken forked saved

theorem logOps_append (hop : op.Sized codec) (wal : LogCleanWal) (conf : LogCleanWalConfig) :
    logOps codec (Wal.append conf lg (nextRec wal lg (op.encode codec))) =
      logOps codec lg ++ [⟨lastId lg + 1, op⟩] := by
  rw [logOps, entries_append, List.map_append, List.filterMap_append, List.map_singleton,
    List.filterMap_cons_some (loadedEntry_encode (r := nextRec wal lg (op.encode codec)) hop rfl),
    List.filterMap_nil]
  rfl

theorem Durable.append (h : Durable codec w st ops) (hlock : LockOk w.server)
    (pc : w.server.requests[r]? = some (.locked op)) (hop : op.Sized codec) (hnul : op.NulFree) (wal : WalSystem) :
    Durable codec ⟨MiniKv.moveTo { w.server with wal := wal } r (.appended op (lastId st.log + 1)),
        w.forkId, w.covered⟩
      { st with
        log := Wal.append w.server.wal.wal.conf st.log (nextRec w.server.wal.wal st.log (op.encode codec)) }
      (ops ++ [op]) := by
  have hheld := hlock.request r _ pc rfl
  have hlen : (ops ++ [op]).length = ops.length + 1 := by simp
  have hcov := h.covered_le
  obtain ⟨j, hj, hlog⟩ := h.log
  obtain ⟨applied, hops, hmem⟩ := h.memory
  rw [inFlight_of_holder hheld pc] at hops
  have htake (n : ℕ) (hn : n ≤ 1 + ops.length) : (ops ++ [op]).take (n - 1) = ops.take (n - 1) :=
    List.take_append_of_le_length (by omega)
  exact {
    nul := fun o ho => by
      rcases List.mem_append.mp ho with ho | ho
      · exact h.nul o ho
      · rw [List.mem_singleton.mp ho]
        exact hnul
    last := by
      rw [lastId_append, hlen]
      change lastId st.log + 1 = _
      rw [h.last]
      omega
    log := by
      refine ⟨j, hj, ?_⟩
      rw [logOps_append hop, hlog, numbered_append, h.last,
        List.drop_append_of_le_length (by rw [length_numbered]; omega),
        show 1 + ops.length + 1 = 2 + ops.length by omega]
    covered_pos := h.covered_pos
    covered_le := by
      rw [hlen]
      exact hcov.trans (by omega)
    snap_le := h.snap_le
    snap := by
      rw [h.snap, htake _ hcov]
    memory := by
      refine ⟨applied, ?_, hmem⟩
      have hflight : inFlight (MiniKv.moveTo { w.server with wal := wal } r
          (.appended op (lastId st.log + 1))) = some (lastId st.log + 1, op) :=
        inFlight_moveTo (s := { w.server with wal := wal }) hheld pc _
      rw [hflight, hops]
      simp [ReqPc.pending]
    apply_le := h.apply_le.trans (by rw [hlen]; omega)
    appended := fun r' op' id hr' => by
      change (w.server.requests.set r _)[r']? = _ at hr'
      rw [get_set pc] at hr'
      rw [hlen]
      split_ifs at hr'
      · cases hr'
        rw [h.last]
        omega
      · exact (h.appended r' op' id hr').trans (by omega)
    taken := fun id hid => (h.taken id hid).trans (by rw [hlen]; omega)
    forked := fun t ht => by
      obtain ⟨h₁, h₂, h₃, h₄⟩ := h.forked t ht
      exact ⟨h₁, h₂, h₃.trans (by rw [hlen]; omega), fun version => by rw [h₄, htake _ h₃]⟩
    saved := h.saved }

theorem Durable.update (h : Durable codec w st ops) (hlock : LockOk w.server) {id : ℕ}
    (pc : w.server.requests[r]? = some (.noted op id)) :
    Durable codec ⟨MiniKv.moveTo { w.server with kvs := applyOp w.server.kvs op } r (.updated op id),
      w.forkId, w.covered⟩ st ops := by
  have hheld := hlock.request r _ pc rfl
  obtain ⟨applied, hops, hmem⟩ := h.memory
  rw [inFlight_of_holder hheld pc] at hops
  have hflight : inFlight (MiniKv.moveTo { w.server with kvs := applyOp w.server.kvs op } r
      (.updated op id)) = none :=
    inFlight_moveTo (s := { w.server with kvs := applyOp w.server.kvs op }) hheld pc _
  refine { h with
    memory := ⟨ops, by rw [hflight]; simp, ?_⟩
    appended := fun r' op' id' hr' => ?_ }
  · change (applyOp w.server.kvs op).find = _
    have hops' : ops = applied ++ [op] := hops
    rw [find_applyOp, hmem, hops', find_applyOps, find_applyOps, List.map_append, storeAll_append]
    rfl
  · change (w.server.requests.set r _)[r']? = _ at hr'
    rw [get_set pc] at hr'
    split_ifs at hr'
    · cases hr'
    · exact h.appended r' op' id' hr'

theorem Durable.fork (h : Durable codec w st ops) (hst : Stored codec w.server st) {maxId : ℕ}
    {cur : Iter} {entries : List Entry} (pc : w.server.checker = .prepared maxId cur)
    (travel : travelEntries w.server.kvs cur = some entries) (hcur : cur = w.server.kvs.begin) :
    Durable codec ⟨{ w.server with
        checker := .forked ⟨maxId, entries.map (fun e => some (codec.serialize e))⟩ },
      w.server.wal.wal.currentEntryIdx, w.covered⟩ st ops := by
  have hheld := hst.lock.checker (by rw [pc]; rfl)
  have hnewest : w.server.wal.wal.currentEntryIdx = 1 + ops.length := hst.ready.counter.trans h.last
  obtain ⟨applied, hops, hmem⟩ := h.memory
  rw [inFlight_of_other (by simp [hheld]), Option.toList_none, List.map_nil, List.append_nil] at hops
  have hentries : entries = w.server.kvs.values := by
    rw [hcur, travelEntries, w.server.kvs.travel_begin, Option.some.injEq] at travel
    exact travel.symm
  have hid := h.taken maxId (by rw [pc]; rfl)
  refine { h with
    taken := fun id hi => by cases hi; exact hid
    forked := fun t ht => ?_
    saved := fun id hi => by cases hi }
  cases ht
  change maxId ≤ w.server.wal.wal.currentEntryIdx ∧ w.covered ≤ w.server.wal.wal.currentEntryIdx ∧
    w.server.wal.wal.currentEntryIdx ≤ 1 + ops.length ∧ ∀ version, _ =
      (applyOps .empty (ops.take (w.server.wal.wal.currentEntryIdx - 1))).find
  rw [hnewest, Nat.add_sub_cancel_left, List.take_length]
  refine ⟨hid, h.covered_le, le_rfl, fun version => ?_⟩
  rw [hentries, find_loaded_values hst.kvs, hmem, ← hops]

theorem settled_meta {d : CpDir} {p : Snapshot} (h : Checkpoint.Settled d p) :
    d.get .cpMeta = if p.id = 0 then none else some (CommonUtils.toString p.id) := by
  rcases h.holds with ⟨h0, -, hm⟩ | ⟨hpos, hm, -⟩
  · rw [if_pos h0, hm]
  · rw [if_neg (Nat.pos_iff_ne_zero.mp hpos), hm]

theorem settled_meta_ne {d e : CpDir} {p q : Snapshot} (hd : Checkpoint.Settled d p)
    (he : Checkpoint.Settled e q) (hlt : p.id < q.id) (hq : q.id < ulongMax) :
    e.get .cpMeta ≠ d.get .cpMeta := by
  rw [settled_meta hd, settled_meta he, if_neg (by omega)]
  split_ifs with h0
  · simp
  · intro hsame
    have hval := congrArg (toUint46 0) (Option.some.inj hsame)
    rw [toUint46_toString 0 (by omega) hq, toUint46_toString 0 (by omega) (hlt.trans hq)] at hval
    exact absurd (Option.some.inj hval) (by omega)

theorem Durable.save (h : Durable codec w st ops) (hst : Stored codec w.server st) {t : Traveller}
    (pc : w.server.checker = .waiting t) {e : CpDir} {rs : LoadCheckpointResult} {version : UInt8}
    (hsettled : Checkpoint.Settled e (st.snap.next version t rs))
    (hid : rs.rc = .OK → rs.maxId = (st.snap.next version t rs).id) :
    Durable codec (w.after { w.server with
        cpDir := e
        checker := if rs.rc = .OK then .saved rs.maxId else .idle } (.saved rs))
      { st with snap := st.snap.next version t rs } ops := by
  obtain ⟨hfork, hcov, hle, hfind⟩ := h.forked t (by rw [pc]; rfl)
  have ht : t.maxId < ulongMax := by
    have := hst.checker
    rw [pc] at this
    exact this.1
  have htaken : ∀ id ∈ (if rs.rc = .OK then CheckPc.saved rs.maxId else .idle).maxId?,
      id ≤ 1 + ops.length := fun id hi => by split_ifs at hi <;> cases hi
  have hnone : ∀ t ∈ (if rs.rc = .OK then CheckPc.saved rs.maxId else .idle).traveller?, False :=
    fun t hi => by split_ifs at hi <;> cases hi
  have hsaved : ∀ id ∈ (if rs.rc = .OK then CheckPc.saved rs.maxId else .idle).savedId?,
      id = (st.snap.next version t rs).id := fun id hi => by
    split_ifs at hi with hok
    · cases hi
      exact hid hok
    · cases hi
  by_cases hnew : rs.rc = .OK ∧ st.snap.id < t.maxId
  · have hq : st.snap.next version t rs = t.snapshot version := if_pos hnew
    rw [hq] at hsettled hsaved ⊢
    have hne : e.get .cpMeta ≠ w.server.cpDir.get .cpMeta :=
      settled_meta_ne hst.settled hsettled hnew.2 ht
    obtain ⟨j, hj, hlog⟩ := h.log
    rw [after_new (by simp) hne]
    exact { h with
      log := ⟨j, show j ≤ w.forkId - 1 by omega, hlog⟩
      covered_pos := h.covered_pos.trans hcov
      covered_le := hle
      snap_le := hfork
      snap := hfind version
      taken := htaken
      forked := fun t' ht' => (hnone t' ht').elim
      saved := fun id hi => (hsaved id hi).trans_le hfork }
  · have hq : st.snap.next version t rs = st.snap := if_neg hnew
    rw [hq] at hsettled hsaved ⊢
    have hsame : e.get .cpMeta = w.server.cpDir.get .cpMeta := by
      rw [settled_meta hsettled, settled_meta hst.settled]
    rw [after_same (by simp) hsame]
    exact h.check rfl rfl rfl rfl htaken (fun t' ht' => (hnone t' ht').elim) fun id hi => (hsaved id hi).trans_le h.snap_le

/-- A truncation that spares the first entry the snapshot has not seen. -/
theorem Durable.cut (h : Durable codec w st ops) (hst : Stored codec w.server st) {maxId i pending : ℕ}
    (pc : w.server.checker = .truncating maxId)
    (hi : w.server.wal.wal.mpEntriesIdSegId maxId = some i)
    (hsafe : ∀ j ∈ w.server.wal.wal.mpEntriesIdSegId (w.covered + 1),
      i < j ∨ w.server.wal.wal.mpEntriesIdSegId w.server.wal.wal.currentEntryIdx = some i)
    (wal : WalSystem) :
    Durable codec ⟨{ w.server with wal := wal, checker := .truncated }, w.forkId, w.covered⟩
      { st with log := recover st.log (keptFrom st.log i - 1), pending := pending } ops := by
  obtain ⟨t, ht, a, ha, hid⟩ := (hst.ready.index _ _).mp hi
  have hfirst := hst.ready.wf.first_pos
  have hkept := keptFrom_bounds ht ha
  have hbound := (SegmentedLog.seg_bounds ht).1
  have hne : st.log.entries ≠ [] :=
    List.ne_nil_of_mem (SegmentedLog.mem_entries_iff.mpr ⟨i, t, ht, ha⟩)
  have hle : maxId ≤ w.covered := h.saved maxId (by rw [pc]; rfl)
  obtain ⟨j₀, hj₀, hlog⟩ := h.log
  have hkeep : ∀ r ∈ st.log.entries, r.id = w.covered + 1 →
      r ∈ (recover st.log (keptFrom st.log i - 1)).entries := fun r hr hrid => by
    obtain ⟨j, t', ht', hrt⟩ := SegmentedLog.mem_entries_iff.mp hr
    have hij := hst.ready.wf.le_of_newer ht ht' ha hrt (by omega)
    refine mem_recover.mpr ⟨j, t', ?_, ht', hrt⟩
    rcases hsafe j ((hst.ready.index _ _).mpr ⟨t', ht', r, hrt, hrid⟩) with hlt | hlast
    · unfold keptFrom
      split_ifs <;> omega
    · rw [hst.ready.newest_index hne, Option.some.injEq] at hlast
      rw [keptFrom, if_pos hlast.symm]
      omega
  exact { h with
    last := by
      rw [lastId_recover hst.ready.wf fun _ => by omega]
      exact h.last
    log := logOps_recover hst.log hlog hj₀ h.covered_pos hkeep h.covered_le
    taken := fun id hid => by cases hid
    forked := fun t ht => by cases ht
    saved := fun id hid => by cases hid }

/-- A new process on the directories finds every operation. -/
theorem Durable.recovered (h : Durable codec w st ops) (hst : Stored codec w.server st)
    (hsafe : ∀ j ∈ w.server.wal.wal.mpEntriesIdSegId (w.covered + 1),
      getUncompletedTruncSegmentsMaxId errnoWal w.server.wal.dir < j)
    (hs : Started codec conf st.snap wal ((recover st.log st.pending).entries.map Rec.entry) u) :
    (∃ j ≤ w.covered - 1, logOps codec (recover st.log st.pending) = (numbered 2 ops).drop j) ∧
      u.kvs.find = (applyOps .empty ops).find := by
  obtain ⟨j₀, hj₀, hlog⟩ := h.log
  have hkeep : ∀ r ∈ st.log.entries, r.id = w.covered + 1 → r ∈ (recover st.log st.pending).entries :=
    fun r hr hrid => by
      obtain ⟨j, t, ht, hrt⟩ := SegmentedLog.mem_entries_iff.mp hr
      have hlt := hsafe j ((hst.ready.index _ _).mpr ⟨t, ht, r, hrt, hrid⟩)
      rw [hst.ready.bound errnoWal] at hlt
      exact mem_recover.mpr ⟨j, t, hlt, ht, hrt⟩
  obtain ⟨j, hj, hleft⟩ := logOps_recover hst.log hlog hj₀ h.covered_pos hkeep h.covered_le
  refine ⟨⟨j, hj, hleft⟩, ?_⟩
  have hkvs : u.kvs = (onWalLoadEntries ⟨loadedKvs codec st.snap, st.snap.id⟩
      (logOps codec (recover st.log st.pending))).kvs := (congrArg Replay.kvs hs.replay).symm
  have hsnap := h.snap_le
  rw [hkvs, hleft]
  exact replay_drop ops h.nul (show st.snap.id ≤ 2 + (w.covered - 1) by omega) hj h.snap

theorem quiet_flight (h : quiet s = true) : inFlight s = none :=
  inFlight_of_other (by simp [quiet_lock h])

theorem Durable.restart (h : Durable codec w st ops) (hst : Stored codec w.server st)
    (hk : KeepsNewest w.server.wal (.restart errnoWal conf.wal))
    (hsafe : ∀ j ∈ w.server.wal.wal.mpEntriesIdSegId (w.covered + 1),
      getUncompletedTruncSegmentsMaxId errnoWal w.server.wal.dir < j)
    (hs : Started codec conf st.snap wal ((recover st.log st.pending).entries.map Rec.entry) u) :
    Durable codec ⟨u, w.forkId, w.covered⟩ ⟨recover st.log st.pending, 0, st.snap⟩ ops := by
  obtain ⟨hlog, hkvs⟩ := h.recovered hst hsafe hs
  have hlast : lastId (recover st.log st.pending) = lastId st.log := lastId_recover hst.ready.wf fun hne => by
    have := hk _ (hst.ready.newest_index hne)
    rwa [hst.ready.bound errnoWal] at this
  have hflight : inFlight u = none := inFlight_of_other (by simp [hs.walLock])
  have happly : u.applyId = (onWalLoadEntries ⟨loadedKvs codec st.snap, st.snap.id⟩
      (logOps codec (recover st.log st.pending))).applyId := (congrArg Replay.applyId hs.replay).symm
  exact { h with
    last := hlast.trans h.last
    log := hlog
    memory := ⟨ops, by rw [hflight]; simp, hkvs⟩
    apply_le := by
      change u.applyId ≤ _
      rw [happly]
      rcases replay_applyId ⟨loadedKvs codec st.snap, st.snap.id⟩
        (logOps codec (recover st.log st.pending)) with he | ⟨p, hp, he⟩
      · rw [he]
        exact h.snap_le.trans h.covered_le
      · obtain ⟨-, r, hr, hid⟩ := mem_logOps (fun r hr => hst.log r (mem_recover_entries hr)) hp
        rw [he, ← hid, ← h.last]
        exact hst.ready.wf.id_le_lastId (mem_recover_entries hr)
    appended := fun r op id hr => by simp [hs.requests] at hr
    taken := fun id hid => by
      rw [hs.checker] at hid
      cases hid
    forked := fun t ht => by
      rw [hs.checker] at ht
      cases ht
    saved := fun id hid => by
      rw [hs.checker] at hid
      cases hid }

theorem Durable.step (h : Durable codec w st ops) (hst : Stored codec w.server st) {a : Action}
    (hroom : Roomy codec w.server a) (hk : KeepsLog w.server a) (hsh : Sheltered w a)
    (hm : Moved codec w.server a u l) :
    Durable codec (w.after u l) (st.next codec w.server a l) (ops ++ l.accepted?.toList.map Prod.snd) := by
  have hnone (hl : l.accepted? = none) : ops ++ l.accepted?.toList.map Prod.snd = ops := by
    rw [hl, Option.toList_none, List.map_nil, List.append_nil]
  have hsame (hl : l ≠ .forked) (hcp : u.cpDir.get .cpMeta = w.server.cpDir.get .cpMeta) :
      w.after u l = ⟨u, w.forkId, w.covered⟩ := after_same hl hcp
  cases hm with
  | @entered req =>
    obtain ⟨h₁, h₂, h₃⟩ := enterLabel_quiet w.server.requests.length (enter w.server.stopped req)
    have hl : (invoke w.server req).2 ≠ .forked := by
      change enterLabel _ (enter w.server.stopped req) ≠ .forked
      cases enter w.server.stopped req <;> simp [enterLabel]
    rw [hnone h₁, hsame hl rfl]
    refine h.keep (inFlight_invoke req) rfl h.apply_le (fun r op id hr => ?_) h.taken (fun _ ht => ht) h.saved
    rcases get_invoke hr with hr | ⟨-, he⟩
    · exact h.appended r op id hr
    · rcases enter_cases w.server.stopped req with ⟨_, h⟩ | ⟨_, h, -⟩ | ⟨_, h⟩ <;> rw [h] at he <;> cases he
  | @lockTaken r op pc free =>
    rw [hnone rfl, hsame (by simp) rfl]
    refine h.moveTo pc (by simp) rfl ?_ rfl h.apply_le rfl
    rw [inFlight_moveTo (s := { w.server with walLock := some (.request r) }) rfl pc,
      inFlight_of_other (by simp [free])]
    rfl
  | @appended r op wal rs pc hwal ok =>
    rw [hsame (by simp) rfl]
    rcases hst.append pc hroom hwal with ⟨hno, -⟩ | ⟨rfl, hop, -⟩
    · exact absurd ok hno
    · exact h.append hst.lock pc hop (hsh op (by rw [pc]; rfl)) wal
  | refused pc _ _ =>
    rw [hnone rfl, hsame (by simp) rfl]
    exact h.moveTo pc (by simp) rfl (inFlight_set pc rfl rfl rfl) rfl h.apply_le rfl
  | @noted r op id pc =>
    rw [hnone rfl, hsame (by simp) rfl]
    refine h.moveTo pc (by simp) rfl (inFlight_set pc rfl rfl rfl) rfl ?_ rfl
    change (if w.server.applyId < id then id else w.server.applyId) ≤ _
    split_ifs
    · exact h.appended r op id pc
    · exact h.apply_le
  | updated pc =>
    rw [hnone rfl, hsame (by simp) rfl]
    exact h.update hst.lock pc
  | @acked r op id pc =>
    rw [hnone rfl, hsame (by simp) rfl]
    refine h.moveTo pc (by simp) rfl ?_ rfl h.apply_le rfl
    rw [inFlight_of_holder (hst.lock.request r _ pc rfl) pc]
    exact inFlight_of_other (by simp [MiniKv.moveTo])
  | @failed r errmsg pc =>
    rw [hnone rfl, hsame (by simp) rfl]
    refine h.moveTo pc (by simp [failure]) rfl ?_ rfl h.apply_le rfl
    rw [inFlight_of_holder (hst.lock.request r _ pc rfl) pc]
    exact inFlight_of_other (by simp [MiniKv.moveTo])
  | answered pc =>
    rw [hnone rfl, hsame (by simp) rfl]
    exact h.moveTo pc (by simp) rfl (inFlight_set pc rfl rfl rfl) rfl h.apply_le rfl
  | small pc =>
    rw [hnone rfl, hsame (by simp) rfl]
    simp only [Store.next, pc]
    exact h.check rfl rfl rfl rfl h.taken (fun _ ht => ht) h.saved
  | sized pc =>
    rw [hnone rfl, hsame (by simp) rfl]
    simp only [Store.next, pc]
    exact h.check rfl rfl rfl rfl (fun _ hi => by cases hi) (fun _ hi => by cases hi) (fun _ hi => by cases hi)
  | idRead pc =>
    rw [hnone rfl, hsame (by simp) rfl]
    simp only [Store.next, pc]
    refine h.check rfl rfl rfl rfl (fun _ hi => ?_) (fun _ hi => by cases hi) (fun _ hi => by cases hi)
    cases hi
    exact h.apply_le
  | @built errno maxId pc =>
    rw [hnone rfl, hsame (by simp) rfl]
    simp only [Store.next, pc]
    refine h.check rfl rfl rfl rfl (fun _ hi => ?_) (fun _ hi => by cases hi) (fun _ hi => by cases hi)
    cases hi
    exact h.taken maxId (by rw [pc]; rfl)
  | @prepared errno maxId cur pc free =>
    rw [hnone rfl, hsame (by simp) rfl]
    simp only [Store.next, pc]
    refine h.check rfl ?_ rfl rfl (fun _ hi => ?_) (fun _ hi => by cases hi) (fun _ hi => by cases hi)
    · exact (inFlight_of_other (by simp)).trans (inFlight_of_other (by simp [free])).symm
    · cases hi
      exact h.taken maxId (by rw [pc]; rfl)
  | @forked errno maxId cur entries pc travel =>
    rw [hnone rfl, Watched.after, if_pos rfl, if_pos rfl]
    simp only [Store.next, pc]
    exact h.fork hst pc travel (hsh.1 cur (by rw [pc]; rfl))
  | @released errno t pc =>
    have hheld := hst.lock.checker (by rw [pc]; rfl)
    rw [hnone rfl, hsame (by simp) rfl]
    simp only [Store.next, pc]
    refine h.check rfl ?_ rfl rfl (fun _ hi => ?_) (fun _ hi => by rw [pc]; exact hi) (fun _ hi => by cases hi)
    · exact (inFlight_of_other (by simp)).trans (inFlight_of_other (by simp [hheld])).symm
    · cases hi
      exact h.taken t.maxId (by rw [pc]; rfl)
  | @saved errno t pc =>
    obtain ⟨rs, e, hsave, hsettled, hid⟩ := hst.save pc errno
    rw [hsave] at hnone ⊢
    rw [hnone rfl]
    simp only [Store.next, pc]
    exact h.save hst pc hsettled hid
  | @truncLock errno maxId pc free =>
    rw [hnone rfl, hsame (by simp) rfl]
    simp only [Store.next, pc]
    refine h.check rfl ?_ rfl rfl (fun _ hi => by cases hi) (fun _ hi => by cases hi) (fun _ hi => ?_)
    · exact (inFlight_of_other (by simp)).trans (inFlight_of_other (by simp [free])).symm
    · cases hi
      exact h.saved maxId (by rw [pc]; rfl)
  | @truncated errno maxId wal rs pc hwal ok =>
    obtain ⟨i, hi, -⟩ := hst.truncate hwal ok
    rw [hnone rfl, hsame (by simp) rfl]
    simp only [Store.next, pc, hi]
    exact h.cut hst pc hi (hsh.2 maxId (by rw [pc]; rfl) i hi) wal
  | finished pc =>
    have hheld := hst.lock.checker (by rw [pc]; rfl)
    rw [hnone rfl, hsame (by simp) rfl]
    simp only [Store.next, pc]
    refine h.check rfl ?_ rfl rfl (fun _ hi => by cases hi) (fun _ hi => by cases hi) (fun _ hi => by cases hi)
    exact (inFlight_of_other (by simp)).trans (inFlight_of_other (by simp [hheld])).symm
  | stopped =>
    rw [hnone rfl, hsame (by simp) rfl]
    exact h.check rfl rfl rfl rfl h.taken (fun _ ht => ht) h.saved
  | @restarted errnoCp errnoWal conf _ ok still new =>
    obtain ⟨u', wal, hu, hs, hw⟩ := hst.start hroom errnoCp errnoWal
    rw [hu] at new
    cases new
    rw [hnone rfl, hsame (by simp) (by rw [settled_meta hs.settled, settled_meta hst.settled])]
    exact h.restart hst hk hsh hs

theorem durable_first (h : Started codec conf ⟨0, 0, []⟩ wal [] s) :
    Durable codec ⟨s, 1, 1⟩ ⟨SegmentedLog.start 1, 0, ⟨0, 0, []⟩⟩ [] where
  nul op hop := by cases hop
  last := rfl
  log := ⟨0, le_rfl, rfl⟩
  covered_pos := le_rfl
  covered_le := le_rfl
  snap_le := Nat.zero_le _
  snap := rfl
  memory := by
    refine ⟨[], ?_, (congrArg (fun r => r.kvs.find) h.replay).symm⟩
    change [] = [] ++ (inFlight s).toList.map Prod.snd
    rw [inFlight_of_other (by simp [h.walLock])]
    rfl
  apply_le := by
    change s.applyId ≤ 1
    rw [show s.applyId = _ from (congrArg Replay.applyId h.replay).symm]
    exact Nat.zero_le 1
  appended r op id hr := by simp [h.requests] at hr
  taken id hid := by
    rw [h.checker] at hid
    cases hid
  forked t ht := by
    rw [h.checker] at ht
    cases ht
  saved id hid := by
    rw [h.checker] at hid
    cases hid

theorem durable_history {errnoCp : ℕ} {es : List Action} {ls : List Label}
    (hP : AlongWatched codec conf errnoCp errnoWal
      (fun w a => Roomy codec w.server a ∧ KeepsLog w.server a ∧ Sheltered w a) es)
    (hrun : watchHistory codec conf errnoCp errnoWal es = some (w, ls)) :
    ∃ st, Stored codec w.server st ∧ Durable codec w st ((acceptedOps ls).map Prod.snd) := by
  obtain ⟨u, wal, hu, hs, hready, -⟩ := start_first codec conf errnoCp errnoWal
  rw [watchHistory, hu, Option.bind_some] at hrun
  have hI := run_invariant (I := fun w tr => ∃ st, Stored codec w.server st ∧
      Durable codec w st ((acceptedOps (tr.map Prod.snd)).map Prod.snd)) ?_ []
    ⟨_, stored_first hs hready, durable_first hs⟩ (hP _ hu) hrun
  · rwa [List.nil_append, List.map_snd_zip (length_run hrun).le] at hI
  · rintro w tr a v l ⟨st, hst, hdur⟩ ⟨hroom, hk, hsh⟩ hstep
    obtain ⟨o, ho, he⟩ := Option.map_eq_some_iff.mp hstep
    cases he
    have hm := step_moved ho
    refine ⟨_, hst.step hroom hm, ?_⟩
    rw [List.map_append, List.map_singleton, acceptedOps_append, List.map_append]
    exact hdur.step hst hroom hk hsh hm

/-- A run whose steps are sheltered can be stopped whenever nothing is in progress: a new process
on the directories starts, and for every key it answers what its predecessor answered, the
outcome of all accepted operations. -/
theorem restart_recovers (conf : KVConfig) (errnoCp errnoWal : ℕ) {es : List Action} {ls : List Label}
    (hP : AlongWatched codec conf errnoCp errnoWal
      (fun w a => Roomy codec w.server a ∧ KeepsLog w.server a ∧ Sheltered w a) es)
    (hrun : watchHistory codec conf errnoCp errnoWal es = some (w, ls)) (hquiet : quiet w.server = true)
    (errnoCp' errnoWal' : ℕ) {conf' : KVConfig} (hconf : Modest conf')
    (hlast : Sheltered w (.restart errnoCp' errnoWal' conf')) :
    kvHistory codec conf errnoCp errnoWal es = some (w.server, ls) ∧
      ∃ u, MiniKv.step codec w.server (.restart errnoCp' errnoWal' conf') = some (u, .started true) ∧
        u.stopped = false ∧ u.kvs.find = w.server.kvs.find ∧
        w.server.kvs.find = (applyOps .empty ((acceptedOps ls).map Prod.snd)).find := by
  obtain ⟨st, hst, hdur⟩ := durable_history hP hrun
  obtain ⟨u, wal, hu, hs, -⟩ := hst.start hconf errnoCp' errnoWal'
  obtain ⟨-, hkvs⟩ := hdur.recovered hst hlast hs
  obtain ⟨applied, hops, hmem⟩ := hdur.memory
  rw [quiet_flight hquiet, Option.toList_none, List.map_nil, List.append_nil] at hops
  have hhist : kvHistory codec conf errnoCp errnoWal es = some (w.server, ls) := by
    obtain ⟨o, ho, hr⟩ := Option.bind_eq_some_iff.mp hrun
    rw [kvHistory, ho, Option.bind_some]
    exact run_watch hr
  refine ⟨hhist, u, ?_, hs.running, ?_, ?_⟩
  · simp only [MiniKv.step, MiniKv.restart, hquiet, if_true, hu, Option.map_some]
  · rw [hkvs, hmem, hops]
  · rw [hmem, hops]

end

/-- A checkpoint in the middle of the writes. -/
def writesAroundCheckpoint : List Action :=
  writeAll 0 (.put (some ⟨[97], [1]⟩)) ++ writeAll 1 (.put (some ⟨[98], [2]⟩)) ++ checkAll ++
    writeAll 2 (.put (some ⟨[99], [3]⟩)) ++ writeAll 3 (.delete [97])

theorem restart_recovers_around_checkpoint :
    ∃ w ls u, watchHistory wireCodec tinyKv 0 0 writesAroundCheckpoint = some (w, ls) ∧
      step wireCodec w.server (.restart 0 0 tinyKv) = some (u, .started true) ∧
      u.kvs.find = w.server.kvs.find ∧ w.covered = 3 := by
  obtain ⟨⟨w, ls⟩, hrun⟩ := Option.isSome_iff_exists.mp
    (by decide +kernel : (watchHistory wireCodec tinyKv 0 0 writesAroundCheckpoint).isSome = true)
  have hend : ∀ o ∈ watchHistory wireCodec tinyKv 0 0 writesAroundCheckpoint,
      quiet o.1.server = true ∧ Sheltered o.1 (.restart 0 0 tinyKv) ∧ o.1.covered = 3 := by
    decide +kernel
  obtain ⟨hquiet, hsh, hcov⟩ := hend _ hrun
  obtain ⟨-, u, hu, -, hfind, -⟩ :=
    restart_recovers tinyKv 0 0 (by decide +kernel) hrun hquiet 0 0 (by decide) hsh
  exact ⟨w, ls, u, hrun, hu, hfind, hcov⟩

/-- What a `Get` gives before and after a restart at the end of a run. -/
def aroundRestart (conf : KVConfig) (es : List Action) (key : Bytes) : Option (Option Entry × Option Entry) :=
  (kvHistory wireCodec conf 0 0 es).bind (fun o =>
    (step wireCodec o.1 (.restart 0 0 conf)).map (fun o' => (o.1.kvs.find key, o'.1.kvs.find key)))

/-- Two entries of the runs below fill a segment. -/
def pairKv : KVConfig :=
  ⟨⟨1, 50, 100, by decide, by decide, smallConf.batchSize_ge, smallConf.batchSize_lt⟩, smallCpConf, 0⟩

/-- A write after a checkpoint that removed nothing is lost, since the clean-up of the restart takes
the number it left for a segment. A write between the fork and the truncation is lost with the
segment that it shares with the checkpoint's id. The deletion of a key with a NUL byte is
replayed for the part before it. And a write that is numbered but not yet in the map when the
traveller is built is missing from the checkpoint under its own number. -/
theorem restart_loses_writes :
    aroundRestart smallKv (writeAll 0 (.put (some ⟨[97], [1]⟩)) ++ checkAll ++
        writeAll 1 (.put (some ⟨[98], [2]⟩))) [98] = some (some ⟨[98], [2]⟩, none) ∧
    aroundRestart pairKv (writeAll 0 (.put (some ⟨[97], [1]⟩)) ++ checkAll.take 6 ++
        writeAll 1 (.put (some ⟨[98], [2]⟩)) ++ writeAll 2 (.put (some ⟨[99], [3]⟩)) ++
        checkAll.drop 6) [98] = some (some ⟨[98], [2]⟩, none) ∧
    aroundRestart smallKv (writeAll 0 (.put (some ⟨[97], [1]⟩)) ++ writeAll 1 (.delete [97, 0])) [97] =
      some (some ⟨[97], [1]⟩, none) ∧
    aroundRestart tinyKv (writeAll 0 (.put (some ⟨[98], [1]⟩)) ++
        (writeAll 1 (.put (some ⟨[97], [2]⟩))).take 4 ++ checkAll.take 3 ++
        (writeAll 1 (.put (some ⟨[97], [2]⟩))).drop 4 ++ writeAll 2 (.put (some ⟨[99], [3]⟩)) ++
        checkAll.drop 3) [97] = some (some ⟨[97], [2]⟩, none) := by
  decide +kernel

end FlyingKV.MiniKv
