import FlyingKV.CheckpointCrash
import FlyingKV.MiniKvServer

set_option autoImplicit false

/-!
# Start

A new `MiniKV` on directories of its predecessor: the checkpoint is loaded into the empty
map and the log is replayed over it.
-/
namespace FlyingKV.MiniKv
open ByteOrder FileDir Wal Checkpoint

section
variable (codec : EntryCodec)

/-- The map once the checkpoint is loaded. -/
def loadedKvs (p : Snapshot) : Kvs := onCheckpointLoadEntry .empty (p.entries.filterMap (cpDecode codec))

/-- A server that has loaded the snapshot `p` and replayed the entries `es` over it. -/
structure Started (conf : KVConfig) (p : Snapshot) (w : WalSystem) (es : List WalEntry) (u : Server) :
    Prop where
  conf_eq : u.conf = conf
  wal : u.wal = w
  checkpoint : u.checkpoint = { Checkpoint.create conf.checkpoint with bInited := true }
  settled : Checkpoint.Settled u.cpDir p
  replay : onWalLoadEntries ⟨loadedKvs codec p, p.id⟩ (es.filterMap (loadedEntry codec)) =
    ⟨u.kvs, u.applyId⟩
  running : u.stopped = false
  requests : u.requests = []
  walLock : u.walLock = none
  checker : u.checker = .idle

end

section
variable {codec : EntryCodec}

theorem onCheckpointLoadEntry_batches (kvs : Kvs) (batches : List (List Bytes)) :
    (batches.map (·.filterMap (cpDecode codec))).foldl onCheckpointLoadEntry kvs =
      onCheckpointLoadEntry kvs (batches.flatten.filterMap (cpDecode codec)) := by
  induction batches generalizing kvs with
  | nil => rfl
  | cons b bs ih =>
    rw [List.flatten_cons, List.filterMap_append, onCheckpointLoadEntry, List.foldl_append]
    exact ih _

theorem flatten_loadedEntries (batches : List (List WalEntry)) :
    (batches.map (·.filterMap (loadedEntry codec))).flatten =
      batches.flatten.filterMap (loadedEntry codec) := by
  induction batches with
  | nil => rfl
  | cons b bs ih => rw [List.map_cons, List.flatten_cons, ih, List.flatten_cons, List.filterMap_append]

theorem startWal_started {s : Server} {errnoWal : ℕ} {w : WalSystem} {batches : List (List WalEntry)}
    (hwal : walStep (walJudge codec) s.wal (.restart errnoWal s.conf.wal) =
      some (w, .restarted .ok batches)) :
    ∃ r, onWalLoadEntries ⟨s.kvs, s.applyId⟩ (batches.flatten.filterMap (loadedEntry codec)) = r ∧
      startWal codec s errnoWal =
        some ({ s with wal := w, kvs := r.kvs, applyId := r.applyId, stopped := false }, true) := by
  refine ⟨_, rfl, ?_⟩
  simp only [startWal, hwal, replayBatches_eq, flatten_loadedEntries]
  rfl

theorem start_started {conf : KVConfig} {d : WalDir} {e : CpDir} {p : Snapshot}
    (hcp : Checkpoint.Settled e p) (hload : Checkpoint.Loadable (cpJudge codec) conf.checkpoint p)
    (errnoCp : ℕ) {errnoWal : ℕ} {w : WalSystem} {batches : List (List WalEntry)}
    (hwal : walStep (walJudge codec) ⟨Wal.create conf.wal, d⟩ (.restart errnoWal conf.wal) =
      some (w, .restarted .ok batches)) :
    ∃ u, start codec (construct conf d e) errnoCp errnoWal = some (u, true) ∧
      Started codec conf p w batches.flatten u := by
  obtain ⟨-, ⟨hobj, hrs, hd⟩, -⟩ :=
    init_safe (Checkpoint.create conf.checkpoint) (checkAndRecover_settled hcp)
  obtain ⟨bs, hflat, hl⟩ := load_settled hd.holds hload errnoCp
    { Checkpoint.create conf.checkpoint with bInited := true } rfl rfl
  obtain ⟨r, hr, hs⟩ := startWal_started (s := { construct conf d e with
    checkpoint := { Checkpoint.create conf.checkpoint with bInited := true }
    cpDir := (Checkpoint.init (Checkpoint.create conf.checkpoint) e []).disk
    kvs := loadedKvs codec p, applyId := p.id }) hwal
  have hkvs : (bs.map (·.filterMap (cpDecode codec))).foldl onCheckpointLoadEntry .empty =
      loadedKvs codec p := by
    rw [onCheckpointLoadEntry_batches, hflat, loadedKvs]
  refine ⟨_, Eq.trans ?_ hs, ⟨rfl, rfl, rfl, hd, hr, rfl, rfl, rfl, rfl⟩⟩
  simp only [start, construct, hobj, hrs, CheckpointResult.ok, ne_eq, not_true_eq_false, if_false, hl, hkvs]

theorem start_first (codec : EntryCodec) (conf : KVConfig) (errnoCp errnoWal : ℕ) :
    ∃ u w, start codec (construct conf Dir.empty Dir.empty) errnoCp errnoWal = some (u, true) ∧
      Started codec conf ⟨0, 0, []⟩ w [] u ∧
      Ready (walJudge codec) w.wal w.dir (SegmentedLog.start 1) 0 ∧ w.wal.conf = conf.wal := by
  obtain ⟨w, batches, hwal, hflat, hready, hconf⟩ := walStep_first (walJudge codec) errnoWal conf.wal
  have hcp : Checkpoint.Settled Dir.empty ⟨0, 0, []⟩ := ⟨rfl, .inl ⟨rfl, rfl, rfl⟩⟩
  obtain ⟨u, hu, hs⟩ := start_started hcp
    ⟨by decide, by simp, by simp, by simp, by simp⟩ errnoCp hwal
  exact ⟨u, w, hu, hflat ▸ hs, hready, hconf⟩

end

end FlyingKV.MiniKv
