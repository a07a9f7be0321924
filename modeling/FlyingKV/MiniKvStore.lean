import FlyingKV.CheckpointSave
import FlyingKV.MiniKvStart
import FlyingKV.MiniKvSteps
import FlyingKV.WalTruncateScope

set_option autoImplicit false

/-!
# What the directories of a running server stand for

A `Store` is a log, the number that a truncation has left behind, and a snapshot. Every
step of the server takes the store it stands for to the next one.
-/
namespace FlyingKV.MiniKv
open ByteOrder DecimalText FramedStream OrderedMap Wal Checkpoint

structure Store where
  log : Log
  pending : ℕ
  snap : Snapshot

/-- The sizes of the buffers of both loads leave room for the largest entries. -/
def Modest (conf : KVConfig) : Prop :=
  conf.wal.readBatchSize ≤ 2 ^ 30 ∧
    0 < conf.checkpoint.batchReadSize ∧ conf.checkpoint.batchReadSize ≤ 2 ^ 30

instance (conf : KVConfig) : Decidable (Modest conf) := inferInstanceAs (Decidable (_ ∧ _ ∧ _))

/-- The operation that the next step of the request appends. -/
def ReqPc.toAppend : ReqPc → Option Op
  | .locked op => some op
  | _ => none

section
variable (codec : EntryCodec)

/-- A key, and at most 2 GiB. -/
def Op.Sized (op : Op) : Prop := op.key ≠ [] ∧ (op.encode codec).length ≤ 2 ^ 31

/-- What is appended finds room, and a new process is configured modestly. -/
def Roomy (s : Server) : Action → Prop
  | .advance r => ∀ op ∈ (s.requests[r]?).bind ReqPc.toAppend,
      Room s.wal.wal (op.encode codec) ∧ (op.encode codec).length ≤ 2 ^ 31
  | .restart _ _ conf => Modest conf
  | _ => True

instance decidableRoomy (s : Server) : ∀ a, Decidable (Roomy codec s a)
  | .invoke _ => isTrue trivial
  | .advance _ => inferInstanceAs (Decidable (∀ op ∈ _, Room s.wal.wal (Op.encode codec op) ∧ _ ≤ _))
  | .check _ => isTrue trivial
  | .stop => isTrue trivial
  | .restart _ _ conf => inferInstanceAs (Decidable (Modest conf))

/-- The store after a step of the server `s`. -/
def Store.next (s : Server) (st : Store) (a : Action) (l : Label) : Store :=
  match a, l, s.checker with
  | .advance _, .accepted _ op, _ =>
    { st with log := append s.wal.wal.conf st.log (nextRec s.wal.wal st.log (op.encode codec)) }
  | .check _, .saved rs, .waiting t =>
    { st with snap := st.snap.next s.checkpoint.conf.writeEntryVersion t rs }
  | .check _, _, .truncating maxId =>
    match s.wal.wal.mpEntriesIdSegId maxId with
    | some i =>
      { st with
        log := recover st.log (keptFrom st.log i - 1)
        pending := if keptFrom st.log i = st.log.first then maxId else 0 }
    | none => st
  | .restart _ _ _, _, _ => ⟨recover st.log st.pending, 0, st.snap⟩
  | _, _, _ => st

/-- The elements of the map are filed under their own keys. -/
def KvsOk (kvs : Kvs) : Prop := ∀ n ∈ kvs.nodes, n.key = n.val.key ∧ (Op.put n.val).Sized codec

def ReqPc.Ok : ReqPc → Prop
  | .wantLock op => op.key ≠ []
  | .locked op => op.key ≠ []
  | .appended op id => op.Sized codec ∧ id < ulongMax
  | .noted op _ => op.Sized codec
  | _ => True

/-- The traveller gives away serialised entries. -/
def TravellerOk (t : Traveller) : Prop :=
  t.maxId < ulongMax ∧ ∃ es : List Entry, (∀ e ∈ es, (Op.put e).Sized codec) ∧
    t.entries = es.map (fun e => some (codec.serialize e))

def CheckPc.Ok : CheckPc → Prop
  | .hasId maxId => maxId < ulongMax
  | .built maxId _ => maxId < ulongMax
  | .prepared maxId _ => maxId < ulongMax
  | .forked t => TravellerOk codec t
  | .waiting t => TravellerOk codec t
  | _ => True

structure Stored (s : Server) (st : Store) : Prop where
  ready : Ready (walJudge codec) s.wal.wal s.wal.dir st.log st.pending
  settled : Checkpoint.Settled s.cpDir st.snap
  inited : s.checkpoint.bInited = true
  lock : LockOk s
  log : ∀ r ∈ st.log.entries, ∃ op : Op, op.Sized codec ∧ r.content = op.encode codec
  snap_lt : st.snap.id < ulongMax
  snap : ∀ c ∈ st.snap.entries, ∃ e : Entry, (Op.put e).Sized codec ∧ c = codec.serialize e
  kvs : KvsOk codec s.kvs
  apply_lt : s.applyId < ulongMax
  requests : ∀ (r : ℕ) pc, s.requests[r]? = some pc → pc.Ok codec
  checker : s.checker.Ok codec

end

/-! ## The map -/

section
variable {codec : EntryCodec}

theorem KvsOk.assign {kvs : Kvs} (h : KvsOk codec kvs) {e : Entry} (he : (Op.put e).Sized codec) :
    KvsOk codec (kvs.assign e.key e) := by
  intro n hn
  rcases mem_assignNode keyOrder hn with ⟨hk, hv, -⟩ | hn
  · exact ⟨by rw [hk, hv], hv ▸ he⟩
  · exact h n hn

theorem KvsOk.erase {kvs : Kvs} (h : KvsOk codec kvs) (key : Bytes) : KvsOk codec (kvs.erase key) :=
  fun n hn => h n (List.mem_of_mem_filter hn)

theorem KvsOk.applyOp {kvs : Kvs} (h : KvsOk codec kvs) {op : Op} (hop : op.Sized codec) :
    KvsOk codec (applyOp kvs op) := by
  cases op with
  | put e => exact h.assign hop
  | delete key => exact h.erase key

theorem KvsOk.load {kvs : Kvs} (h : KvsOk codec kvs) {es : List Entry}
    (hes : ∀ e ∈ es, (Op.put e).Sized codec) : KvsOk codec (onCheckpointLoadEntry kvs es) := by
  induction es generalizing kvs with
  | nil => exact h
  | cons e es ih =>
    exact ih (h.assign (hes e List.mem_cons_self)) fun e' he' => hes e' (List.mem_cons_of_mem _ he')

theorem KvsOk.replay {s : Replay} (h : KvsOk codec s.kvs) {es : List LoadedEntry}
    (hes : ∀ p ∈ es, p.op.Sized codec) : KvsOk codec (onWalLoadEntries s es).kvs := by
  induction es generalizing s with
  | nil => exact h
  | cons p es ih =>
    refine @ih (replayEntry s p) ?_ fun q hq => hes q (List.mem_cons_of_mem _ hq)
    have hp := hes p List.mem_cons_self
    unfold replayEntry
    split_ifs
    · exact h
    · cases hop : p.op with
      | delete key => exact h.erase _
      | put e => exact h.assign (hop ▸ hp)

end

/-! ## Steps -/

section
variable {codec : EntryCodec} {s u : Server} {st : Store} {l : Label}
variable {r : ℕ} {op : Op} {w : WalSystem} {conf : KVConfig}

/-- A step that leaves both directories alone. -/
theorem Stored.keep (h : Stored codec s st) (lock : LockOk u) (wal : u.wal = s.wal)
    (cpDir : u.cpDir = s.cpDir) (obj : u.checkpoint = s.checkpoint) (kvs : KvsOk codec u.kvs)
    (apply_lt : u.applyId < ulongMax)
    (requests : ∀ (r : ℕ) pc, u.requests[r]? = some pc → pc.Ok codec) (checker : u.checker.Ok codec) :
    Stored codec u st where
  ready := wal ▸ h.ready
  settled := cpDir ▸ h.settled
  inited := obj ▸ h.inited
  lock := lock
  log := h.log
  snap_lt := h.snap_lt
  snap := h.snap
  kvs := kvs
  apply_lt := apply_lt
  requests := requests
  checker := checker

theorem Stored.checkerOk (h : Stored codec s st) {pc : CheckPc} (hpc : s.checker = pc) : pc.Ok codec :=
  hpc ▸ h.checker

theorem Stored.set (h : Stored codec s st) {pc₀ pc : ReqPc} (hr : s.requests[r]? = some pc₀) (hpc : pc.Ok codec)
    (r' : ℕ) (pc' : ReqPc) (hr' : (s.requests.set r pc)[r']? = some pc') : pc'.Ok codec := by
  rw [get_set hr] at hr'
  split_ifs at hr'
  · cases hr'
    exact hpc
  · exact h.requests r' pc' hr'

/-- One request moves on, and at most the memory and the lock change with it. -/
theorem Stored.moveTo (h : Stored codec s st) {pc₀ pc : ReqPc} {kvs : Kvs} {applyId : ℕ} {walLock : Option Holder}
    (lock : LockOk (moveTo { s with kvs := kvs, applyId := applyId, walLock := walLock } r pc))
    (hr : s.requests[r]? = some pc₀) (hpc : pc.Ok codec) (hkvs : KvsOk codec kvs) (happly : applyId < ulongMax) :
    Stored codec (moveTo { s with kvs := kvs, applyId := applyId, walLock := walLock } r pc) st :=
  h.keep lock rfl rfl rfl hkvs happly (h.set hr hpc) h.checker

theorem Stored.append (h : Stored codec s st) {rs : AppendEntryResult} (pc : s.requests[r]? = some (.locked op))
    (hroom : Roomy codec s (.advance r))
    (wal : walStep (walJudge codec) s.wal (.append (some (op.encode codec))) = some (w, .appended rs)) :
    (rs.rc ≠ .OK ∧ w = s.wal) ∨ (rs = ⟨.OK, "", lastId st.log + 1⟩ ∧ op.Sized codec ∧
      Ready (walJudge codec) w.wal w.dir
        (Wal.append s.wal.wal.conf st.log (nextRec s.wal.wal st.log (op.encode codec))) st.pending) := by
  obtain ⟨hr, hsize⟩ := hroom op (by rw [pc]; rfl)
  have hkey : op.key ≠ [] := h.requests r _ pc
  have hadmits : Admits (walJudge codec) s.wal (.append (some (op.encode codec))) :=
    ⟨walJudge_encode codec hkey, hr⟩
  cases walStep_spec h.ready hadmits wal with
  | refused not_ok => exact .inl ⟨not_ok, rfl⟩
  | appended ready conf min => exact .inr ⟨rfl, ⟨hkey, hsize⟩, ready⟩

theorem encoded_serialized (es : List Entry) :
    encoded (es.map (fun e => some (codec.serialize e))) = es.map codec.serialize := by
  induction es with
  | nil => rfl
  | cons e es ih => rw [List.map_cons, List.map_cons, encoded, ih]

theorem Op.Sized.length_serialize {e : Entry} (h : (Op.put e).Sized codec) :
    (codec.serialize e).length < 2 ^ 31 := by
  have := h.2
  rwa [Op.encode, List.length_cons, Nat.succ_le_iff] at this

theorem Stored.save (h : Stored codec s st) {t : Traveller} (pc : s.checker = .waiting t) (errno : ℕ) :
    ∃ rs e, checkSave s errno t =
        ({ s with cpDir := e, checker := if rs.rc = .OK then .saved rs.maxId else .idle }, .saved rs) ∧
      Checkpoint.Settled e (st.snap.next s.checkpoint.conf.writeEntryVersion t rs) ∧
      (rs.rc = .OK → rs.maxId = (st.snap.next s.checkpoint.conf.writeEntryVersion t rs).id) := by
  obtain ⟨ht, es, hes, hentries⟩ := h.checkerOk pc
  have hsave := save_settled h.settled h.snap_lt errno s.checkpoint h.inited t ht fun b hb => by
    rw [hentries, encoded_serialized] at hb
    obtain ⟨e, he, rfl⟩ := List.mem_map.mp hb
    exact (hes e he).length_serialize.trans (by norm_num)
  exact ⟨_, _, rfl, hsave.post⟩

theorem TravellerOk.snapshot {t : Traveller} (h : TravellerOk codec t) (version : UInt8) :
    ∀ c ∈ (t.snapshot version).entries, ∃ e : Entry, (Op.put e).Sized codec ∧ c = codec.serialize e := by
  obtain ⟨-, es, hes, hentries⟩ := h
  intro c hc
  rw [Traveller.snapshot, hentries, encoded_serialized] at hc
  obtain ⟨e, he, rfl⟩ := List.mem_map.mp hc
  exact ⟨e, hes e he, rfl⟩

theorem Stored.truncate (h : Stored codec s st) {maxId : ℕ} {rs : WalResult}
    (wal : walStep (walJudge codec) s.wal (.truncate maxId) = some (w, .truncated rs)) (ok : rs.rc = .OK) :
    ∃ i, s.wal.wal.mpEntriesIdSegId maxId = some i ∧ Ready (walJudge codec) w.wal w.dir
      (recover st.log (keptFrom st.log i - 1)) (if keptFrom st.log i = st.log.first then maxId else 0) := by
  have hfirst := h.ready.wf.first_pos
  have hadmits : Admits (walJudge codec) s.wal (.truncate maxId) := trivial
  cases walStep_spec h.ready hadmits wal with
  | missing _ => cases ok
  | @pending _ i _ _ found kept ready _ _ =>
    refine ⟨i, found, ?_⟩
    rw [recover_of_lt (by omega), if_pos kept]
    exact ready
  | @cut _ i _ found kept last ready _ _ =>
    obtain ⟨t, ht, a, ha, -⟩ := (h.ready.index _ _).mp found
    have hcur := (keptFrom_bounds ht ha).2.2
    refine ⟨i, found, ?_⟩
    rw [recover, if_pos (by omega), if_neg (by omega)]
    exact ready

/-! ## Restart -/

/-- The operations that replaying the log meets. -/
def logOps (codec : EntryCodec) (l : Log) : List LoadedEntry :=
  (l.entries.map Rec.entry).filterMap (loadedEntry codec)

theorem mem_recover_entries {lg : Log} {b : ℕ} {r : Rec} (h : r ∈ (recover lg b).entries) :
    r ∈ lg.entries := by
  obtain ⟨i, t, -, ht, hr⟩ := mem_recover.mp h
  exact SegmentedLog.mem_entries_iff.mpr ⟨i, t, ht, hr⟩

theorem loadedEntry_encode {r : Rec} (hop : op.Sized codec) (hr : r.content = op.encode codec) :
    loadedEntry codec r.entry = some ⟨r.id, op⟩ := by
  have hd : walDecode codec r.entry.content = some op :=
    (congrArg (walDecode codec) hr).trans (walDecode_encode codec hop.1)
  rw [loadedEntry, hd]
  rfl

theorem mem_logOps {lg : Log} (hlog : ∀ r ∈ lg.entries, ∃ op : Op, op.Sized codec ∧ r.content = op.encode codec)
    {p : LoadedEntry} (hp : p ∈ logOps codec lg) : p.op.Sized codec ∧ ∃ r ∈ lg.entries, r.id = p.id := by
  obtain ⟨e, he, hdec⟩ := List.mem_filterMap.mp hp
  obtain ⟨r, hr, rfl⟩ := List.mem_map.mp he
  obtain ⟨op, hop, hcontent⟩ := hlog r hr
  rw [loadedEntry_encode hop hcontent, Option.some.injEq] at hdec
  exact ⟨hdec ▸ hop, r, hr, by rw [← hdec]⟩

theorem Stored.loadable (h : Stored codec s st) (hm : Modest conf) :
    Checkpoint.Loadable (cpJudge codec) conf.checkpoint st.snap := by
  obtain ⟨-, hpos, hle⟩ := hm
  refine loadable_of_le h.snap_lt (fun c hc => ?_) hpos (hle.trans (by norm_num)) fun c hc => ?_
  · obtain ⟨e, he, rfl⟩ := h.snap c hc
    exact cpJudge_serialize codec he.1
  · obtain ⟨e, he, rfl⟩ := h.snap c hc
    have := he.length_serialize
    simp only [Checkpoint.entryExtraFieldsSize]
    omega

theorem Stored.fits (h : Stored codec s st) (hm : Modest conf) : LogFits conf.wal st.log := by
  have hle := hm.1
  refine logFits_of_le (fun r hr => ?_) (hle.trans (by norm_num))
  obtain ⟨op, hop, hcontent⟩ := h.log r hr
  have := hop.2
  rw [hcontent]
  simp only [Wal.entryExtraFieldsSize]
  omega

/-- A new process on the directories: it starts, and replays what `Init` leaves of the log. -/
theorem Stored.start (h : Stored codec s st) (hm : Modest conf) (errnoCp errnoWal : ℕ) :
    ∃ u w, start codec (construct conf s.wal.dir s.cpDir) errnoCp errnoWal = some (u, true) ∧
      Started codec conf st.snap w ((recover st.log st.pending).entries.map Rec.entry) u ∧
      Ready (walJudge codec) w.wal w.dir (recover st.log st.pending) 0 := by
  rcases h.ready.reopen errnoWal conf.wal with ⟨-, ho⟩ | ⟨hno, -⟩
  · have hwal : walStep (walJudge codec) ⟨Wal.create conf.wal, s.wal.dir⟩ (.restart errnoWal conf.wal) =
        some (⟨(reopen (walJudge codec) errnoWal conf.wal s.wal.dir []).value.wal,
            (reopen (walJudge codec) errnoWal conf.wal s.wal.dir []).disk⟩,
          .restarted .ok (reopen (walJudge codec) errnoWal conf.wal s.wal.dir []).value.batches) := by
      simp only [walStep, ho.result]
    obtain ⟨u, hu, hs⟩ := start_started h.settled (h.loadable hm) errnoCp hwal
    rw [ho.batches] at hs
    exact ⟨u, _, hu, hs, ho.ready⟩
  · exact absurd ((h.fits hm).loads _) hno

theorem Stored.restart (h : Stored codec s st)
    (hs : Started codec conf st.snap w ((recover st.log st.pending).entries.map Rec.entry) u)
    (hw : Ready (walJudge codec) w.wal w.dir (recover st.log st.pending) 0) :
    Stored codec u ⟨recover st.log st.pending, 0, st.snap⟩ := by
  have hlog : ∀ r ∈ (recover st.log st.pending).entries, ∃ op : Op, op.Sized codec ∧
      r.content = op.encode codec := fun r hr => h.log r (mem_recover_entries hr)
  have hloaded : KvsOk codec (loadedKvs codec st.snap) := by
    refine KvsOk.load (fun n hn => by cases hn) fun e he => ?_
    obtain ⟨c, hc, hdec⟩ := List.mem_filterMap.mp he
    obtain ⟨e', he', rfl⟩ := h.snap c hc
    rw [cpDecode_serialize codec he'.1, Option.some.injEq] at hdec
    exact hdec ▸ he'
  have hkvs := hloaded.replay (s := ⟨loadedKvs codec st.snap, st.snap.id⟩)
    fun p hp => (mem_logOps hlog hp).1
  have hrep := hs.replay
  exact {
    ready := hs.wal ▸ hw
    settled := hs.settled
    inited := by rw [hs.checkpoint]
    lock := ⟨fun r pc hr => by simp [hs.requests] at hr, fun hold => by
      simp [hs.checker, CheckPc.holds] at hold⟩
    log := hlog
    snap_lt := h.snap_lt
    snap := h.snap
    kvs := by
      rw [show u.kvs = _ from (congrArg Replay.kvs hrep).symm]
      exact hkvs
    apply_lt := by
      rw [show u.applyId = _ from (congrArg Replay.applyId hrep).symm]
      rcases replay_applyId ⟨loadedKvs codec st.snap, st.snap.id⟩
        (logOps codec (recover st.log st.pending)) with happly | ⟨p, hp, happly⟩
      · exact happly.trans_lt h.snap_lt
      · obtain ⟨-, r, hr, hid⟩ := mem_logOps hlog hp
        exact happly.trans_lt (hid ▸ (hw.wf.ids r hr).2)
    requests := fun r pc hr => by simp [hs.requests] at hr
    checker := by
      rw [hs.checker]
      trivial }

/-! ## Every step -/

/-- The record is in the log, the operation not yet in the map. -/
theorem Stored.logged (h : Stored codec s st) (pc : s.requests[r]? = some (.locked op)) (hop : op.Sized codec)
    (hready : Ready (walJudge codec) w.wal w.dir
      (Wal.append s.wal.wal.conf st.log (nextRec s.wal.wal st.log (op.encode codec))) st.pending)
    (hlock : LockOk (MiniKv.moveTo { s with wal := w } r (.appended op (lastId st.log + 1)))) :
    Stored codec (MiniKv.moveTo { s with wal := w } r (.appended op (lastId st.log + 1)))
      { st with log := Wal.append s.wal.wal.conf st.log (nextRec s.wal.wal st.log (op.encode codec)) } := by
  have hmem : nextRec s.wal.wal st.log (op.encode codec) ∈ (Wal.append s.wal.wal.conf st.log
      (nextRec s.wal.wal st.log (op.encode codec))).entries := by simp
  exact {
    ready := hready
    settled := h.settled
    inited := h.inited
    lock := hlock
    log := fun r hr => by
      rcases List.mem_append.mp (entries_append _ _ _ ▸ hr) with hr | hr
      · exact h.log r hr
      · rw [List.mem_singleton.mp hr]
        exact ⟨op, hop, rfl⟩
    snap_lt := h.snap_lt
    snap := h.snap
    kvs := h.kvs
    apply_lt := h.apply_lt
    requests := h.set pc ⟨hop, (hready.wf.ids _ hmem).2⟩
    checker := h.checker }

/-- The child has saved, or has failed and left the checkpoint. -/
theorem Stored.saved (h : Stored codec s st) {t : Traveller} (ht : TravellerOk codec t) {e : CpDir}
    {rs : LoadCheckpointResult}
    (hsettled : Checkpoint.Settled e (st.snap.next s.checkpoint.conf.writeEntryVersion t rs))
    (hlock : LockOk { s with cpDir := e, checker := if rs.rc = .OK then .saved rs.maxId else .idle }) :
    Stored codec { s with cpDir := e, checker := if rs.rc = .OK then .saved rs.maxId else .idle }
      { st with snap := st.snap.next s.checkpoint.conf.writeEntryVersion t rs } where
  ready := h.ready
  settled := hsettled
  inited := h.inited
  lock := hlock
  log := h.log
  snap_lt := by
    simp only [Snapshot.next]
    split_ifs
    · exact ht.1
    · exact h.snap_lt
  snap := by
    simp only [Snapshot.next]
    split_ifs
    · exact ht.snapshot s.checkpoint.conf.writeEntryVersion
    · exact h.snap
  kvs := h.kvs
  apply_lt := h.apply_lt
  requests := h.requests
  checker := by
    change (if rs.rc = .OK then CheckPc.saved rs.maxId else .idle).Ok codec
    split_ifs <;> trivial

theorem Stored.step (h : Stored codec s st) {a : Action} (hroom : Roomy codec s a)
    (hm : Moved codec s a u l) : Stored codec u (st.next codec s a l) := by
  have hlock := h.lock.step hm
  cases hm with
  | @entered req =>
    refine h.keep hlock rfl rfl rfl h.kvs h.apply_lt (fun r pc hr => ?_) h.checker
    rcases get_invoke hr with hr | ⟨-, rfl⟩
    · exact h.requests r pc hr
    · rcases enter_cases s.stopped req with ⟨_, he⟩ | ⟨_, he, -, hkey⟩ | ⟨_, he⟩ <;> rw [he]
      · trivial
      · exact hkey
      · trivial
  | @lockTaken r op pc _ =>
    have hkey : op.key ≠ [] := h.requests r _ pc
    exact h.moveTo hlock pc hkey h.kvs h.apply_lt
  | @appended r op w rs pc wal ok =>
    rcases h.append pc hroom wal with ⟨hno, -⟩ | ⟨rfl, hop, hready⟩
    · exact absurd ok hno
    · exact h.logged pc hop hready hlock
  | refused pc wal not_ok =>
    rcases h.append pc hroom wal with ⟨-, rfl⟩ | ⟨rfl, -⟩
    · exact h.keep hlock rfl rfl rfl h.kvs h.apply_lt (h.set pc trivial) h.checker
    · exact absurd rfl not_ok
  | noted pc =>
    obtain ⟨hop, hid⟩ := h.requests _ _ pc
    refine h.moveTo hlock pc hop h.kvs ?_
    split_ifs
    · exact hid
    · exact h.apply_lt
  | updated pc => exact h.moveTo hlock pc trivial (h.kvs.applyOp (h.requests _ _ pc)) h.apply_lt
  | acked pc => exact h.moveTo hlock pc trivial h.kvs h.apply_lt
  | failed pc => exact h.moveTo hlock pc trivial h.kvs h.apply_lt
  | answered pc => exact h.moveTo hlock pc trivial h.kvs h.apply_lt
  | small pc =>
    simp only [Store.next, pc]
    exact h
  | sized pc =>
    simp only [Store.next, pc]
    exact h.keep hlock rfl rfl rfl h.kvs h.apply_lt h.requests trivial
  | idRead pc =>
    simp only [Store.next, pc]
    exact h.keep hlock rfl rfl rfl h.kvs h.apply_lt h.requests h.apply_lt
  | built pc =>
    simp only [Store.next, pc]
    have hpc := h.checkerOk pc
    exact h.keep hlock rfl rfl rfl h.kvs h.apply_lt h.requests hpc
  | prepared pc _ =>
    simp only [Store.next, pc]
    have hpc := h.checkerOk pc
    exact h.keep hlock rfl rfl rfl h.kvs h.apply_lt h.requests hpc
  | forked pc travel =>
    simp only [Store.next, pc]
    have hpc := h.checkerOk pc
    refine h.keep hlock rfl rfl rfl h.kvs h.apply_lt h.requests ⟨hpc, _, fun e he => ?_, rfl⟩
    obtain ⟨n, hn, rfl⟩ := List.mem_map.mp (s.kvs.mem_of_travel travel e he)
    exact (h.kvs n hn).2
  | released pc =>
    simp only [Store.next, pc]
    have hpc := h.checkerOk pc
    exact h.keep hlock rfl rfl rfl h.kvs h.apply_lt h.requests hpc
  | @saved errno t pc =>
    obtain ⟨rs, e, hsave, hsettled, -⟩ := h.save pc errno
    have hpc := h.checkerOk pc
    rw [hsave] at hlock ⊢
    simp only [Store.next, pc]
    exact h.saved hpc hsettled hlock
  | truncLock pc _ =>
    simp only [Store.next, pc]
    exact h.keep hlock rfl rfl rfl h.kvs h.apply_lt h.requests trivial
  | truncated pc wal ok =>
    obtain ⟨i, hi, hready⟩ := h.truncate wal ok
    simp only [Store.next, pc, hi]
    exact { h with
      ready := hready
      lock := hlock
      log := fun r hr => h.log r (mem_recover_entries hr)
      checker := trivial }
  | finished pc =>
    simp only [Store.next, pc]
    exact h.keep hlock rfl rfl rfl h.kvs h.apply_lt h.requests trivial
  | stopped => exact h.keep hlock rfl rfl rfl h.kvs h.apply_lt h.requests h.checker
  | @restarted errnoCp errnoWal conf _ ok still new =>
    obtain ⟨u', w, hu, hs, hw⟩ := h.start hroom errnoCp errnoWal
    rw [hu] at new
    cases new
    exact h.restart hs hw

theorem stored_first (h : Started codec conf ⟨0, 0, []⟩ w [] s)
    (hw : Ready (walJudge codec) w.wal w.dir (SegmentedLog.start 1) 0) :
    Stored codec s ⟨SegmentedLog.start 1, 0, ⟨0, 0, []⟩⟩ where
  ready := h.wal ▸ hw
  settled := h.settled
  inited := by rw [h.checkpoint]
  lock := ⟨fun r pc hr => by simp [h.requests] at hr, fun hold => by
    simp [h.checker, CheckPc.holds] at hold⟩
  log r hr := by cases hr
  snap_lt := by decide
  snap c hc := by cases hc
  kvs := by
    rw [show s.kvs = _ from (congrArg Replay.kvs h.replay).symm]
    exact fun n hn => by cases hn
  apply_lt := by
    rw [show s.applyId = _ from (congrArg Replay.applyId h.replay).symm]
    exact (by decide : 0 < ulongMax)
  requests r pc hr := by simp [h.requests] at hr
  checker := by
    rw [h.checker]
    trivial

end

end FlyingKV.MiniKv
