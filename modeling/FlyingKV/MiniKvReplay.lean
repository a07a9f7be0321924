import FlyingKV.MiniKvEntries
import Mathlib.Data.List.TakeWhile

set_option autoImplicit false

/-!
# Loading a checkpoint and replaying the log over it

The log is replayed from the apply id of the checkpoint on. The checkpoint may have
seen later operations already; replaying them again does no harm.
-/
namespace FlyingKV.MiniKv
open ByteOrder OrderedMap LastWriter

/-- The part of `MiniKV` that the load callbacks work on. -/
structure Replay where
  kvs : Kvs
  applyId : ℕ

/-- `on_checkpoint_load_entry`. -/
def onCheckpointLoadEntry (kvs : Kvs) (entries : List Entry) : Kvs :=
  entries.foldl (fun kvs entry => kvs.assign entry.key entry) kvs

/-- A `wal::WalEntry` as the callback receives it. -/
structure LoadedEntry where
  id : ℕ
  op : Op
deriving DecidableEq, Repr

/-- The loop body of `on_wal_load_entries`; the length of a deleted key is what `strlen` says. -/
def replayEntry (s : Replay) (p : LoadedEntry) : Replay :=
  if p.id < s.applyId then s
  else match p.op with
    | .delete key => ⟨s.kvs.erase (key.takeWhile (· ≠ 0)), p.id⟩
    | .put entry => ⟨s.kvs.assign entry.key entry, p.id⟩

def onWalLoadEntries (s : Replay) (entries : List LoadedEntry) : Replay :=
  entries.foldl replayEntry s

/-- `Load` calls back once for each batch. -/
def replayBatches (s : Replay) (batches : List (List LoadedEntry)) : Replay :=
  batches.foldl onWalLoadEntries s

/-- A deleted key without a NUL byte. -/
def Op.NulFree : Op → Prop
  | .put _ => True
  | .delete key => (0 : UInt8) ∉ key

instance : ∀ op : Op, Decidable op.NulFree
  | .put _ => isTrue trivial
  | .delete key => inferInstanceAs (Decidable ((0 : UInt8) ∉ key))

/-- What `Put` and `Delete` do to the map in memory. -/
def applyOp (kvs : Kvs) : Op → Kvs
  | .put entry => kvs.assign entry.key entry
  | .delete key => kvs.erase key

def applyOps (kvs : Kvs) (ops : List Op) : Kvs := ops.foldl applyOp kvs

theorem strlen_iff (key : Bytes) : key.takeWhile (· ≠ 0) = key ↔ (0 : UInt8) ∉ key := by
  rw [List.takeWhile_eq_self_iff]
  constructor
  · intro h hmem
    simpa using h 0 hmem
  · intro h b hb
    simp only [ne_eq, decide_eq_true_eq]
    rintro rfl
    exact h hb

theorem find_applyOp (kvs : Kvs) (op : Op) : (applyOp kvs op).find = store kvs.find op.write := by
  cases op with
  | put entry => exact kvs.find_assign entry.key entry
  | delete key => exact kvs.find_erase key

theorem find_applyOps (kvs : Kvs) (ops : List Op) :
    (applyOps kvs ops).find = storeAll kvs.find (ops.map Op.write) := by
  induction ops generalizing kvs with
  | nil => rfl
  | cons op ops ih =>
    rw [List.map_cons]
    exact (ih _).trans (by rw [find_applyOp]; rfl)

theorem replayBatches_eq (s : Replay) (batches : List (List LoadedEntry)) :
    replayBatches s batches = onWalLoadEntries s batches.flatten := by
  induction batches generalizing s with
  | nil => rfl
  | cons b bs ih =>
    rw [List.flatten_cons, onWalLoadEntries, List.foldl_append]
    exact ih _

theorem replayEntry_skip {s : Replay} {p : LoadedEntry} (h : p.id < s.applyId) : replayEntry s p = s :=
  if_pos h

theorem replayEntry_apply {s : Replay} {p : LoadedEntry} (h : s.applyId ≤ p.id) (hn : p.op.NulFree) :
    replayEntry s p = ⟨applyOp s.kvs p.op, p.id⟩ := by
  rw [replayEntry, if_neg (by omega)]
  obtain ⟨id, op⟩ := p
  cases op with
  | put entry => rfl
  | delete key =>
    simp only [(strlen_iff key).mpr hn, applyOp]

theorem replayEntry_applyId (s : Replay) (p : LoadedEntry) :
    (replayEntry s p).applyId = if p.id < s.applyId then s.applyId else p.id := by
  rw [replayEntry]
  split_ifs
  · rfl
  · obtain ⟨id, op⟩ := p
    cases op <;> rfl

/-- Replaying leaves the apply id where it was or takes it to the id of an entry. -/
theorem replay_applyId (s : Replay) (entries : List LoadedEntry) :
    (onWalLoadEntries s entries).applyId = s.applyId ∨
      ∃ p ∈ entries, (onWalLoadEntries s entries).applyId = p.id := by
  induction entries generalizing s with
  | nil => exact .inl rfl
  | cons p rest ih =>
    change (onWalLoadEntries (replayEntry s p) rest).applyId = _ ∨
      ∃ q ∈ p :: rest, (onWalLoadEntries (replayEntry s p) rest).applyId = q.id
    rcases ih (replayEntry s p) with h | ⟨q, hq, h⟩
    · rw [h, replayEntry_applyId]
      split_ifs
      · exact .inl rfl
      · exact .inr ⟨p, List.mem_cons_self, rfl⟩
    · exact .inr ⟨q, List.mem_cons_of_mem _ hq, h⟩

/-- Behind an entry with the largest id the apply id is that id. -/
theorem replay_applyId_last {s : Replay} {entries : List LoadedEntry} {p : LoadedEntry}
    (h : s.applyId ≤ p.id) (hlt : ∀ q ∈ entries, q.id < p.id) :
    (onWalLoadEntries s (entries ++ [p])).applyId = p.id := by
  have hle : (onWalLoadEntries s entries).applyId ≤ p.id := by
    rcases replay_applyId s entries with he | ⟨q, hq, he⟩
    · exact he.trans_le h
    · exact he.trans_le (hlt q hq).le
  rw [onWalLoadEntries, List.foldl_append]
  change (replayEntry (onWalLoadEntries s entries) p).applyId = _
  rw [replayEntry_applyId, if_neg (by omega)]

/-- Entries in the order of their ids are replayed from the apply id on. -/
theorem onWalLoadEntries_sorted {s : Replay} {entries : List LoadedEntry}
    (hs : entries.Pairwise (fun a b => a.id < b.id)) (hn : ∀ p ∈ entries, p.op.NulFree) :
    onWalLoadEntries s entries =
      ⟨applyOps s.kvs ((entries.filter (fun p => s.applyId ≤ p.id)).map LoadedEntry.op),
        (((entries.filter (fun p => s.applyId ≤ p.id)).getLast?).map LoadedEntry.id).getD s.applyId⟩ := by
  induction entries generalizing s with
  | nil => rfl
  | cons p rest ih =>
    obtain ⟨hp, hrest⟩ := List.pairwise_cons.mp hs
    have hih (t : Replay) := @ih t hrest (fun q hq => hn q (List.mem_cons_of_mem _ hq))
    rw [onWalLoadEntries, List.foldl_cons]
    change onWalLoadEntries (replayEntry s p) rest = _
    by_cases h : s.applyId ≤ p.id
    · -- from here on nothing is skipped, whichever of the two bounds is taken
      have hall : ∀ b ≤ p.id, rest.filter (fun q => b ≤ q.id) = rest := fun b hb =>
        List.filter_eq_self.mpr fun q hq => by
          have := hp q hq
          simp only [decide_eq_true_eq]
          omega
      rw [replayEntry_apply h (hn p (by simp)), hih, List.filter_cons_of_pos (by simpa using h),
        hall _ le_rfl, hall _ h]
      cases rest with
      | nil => rfl
      | cons q rest => simp [applyOps, List.getLast?_cons]
    · rw [replayEntry_skip (by omega), hih, List.filter_cons_of_neg (by simpa using h)]

/-- A log of operations whose ids count up from `i`. -/
def numbered (i : ℕ) : List Op → List LoadedEntry
  | [] => []
  | op :: ops => ⟨i, op⟩ :: numbered (i + 1) ops

theorem drop_numbered (i j : ℕ) (ops : List Op) :
    (numbered i ops).drop j = numbered (i + j) (ops.drop j) := by
  induction ops generalizing i j with
  | nil => simp [numbered]
  | cons op ops ih =>
    cases j with
    | zero => rfl
    | succ j =>
      rw [numbered, List.drop_succ_cons, List.drop_succ_cons, ih]
      congr 1
      omega

theorem mem_numbered {i : ℕ} {ops : List Op} {p : LoadedEntry} (h : p ∈ numbered i ops) :
    i ≤ p.id ∧ p.id < i + ops.length ∧ p.op ∈ ops := by
  induction ops generalizing i with
  | nil => simp [numbered] at h
  | cons op ops ih =>
    rw [numbered] at h
    rcases List.mem_cons.mp h with rfl | h
    · simp
    · obtain ⟨h₁, h₂, h₃⟩ := ih h
      exact ⟨by omega, by simp only [List.length_cons]; omega, List.mem_cons_of_mem _ h₃⟩

theorem numbered_sorted (i : ℕ) (ops : List Op) :
    (numbered i ops).Pairwise (fun a b => a.id < b.id) := by
  induction ops generalizing i with
  | nil => exact List.Pairwise.nil
  | cons op ops ih =>
    exact List.pairwise_cons.mpr ⟨fun p hp => (mem_numbered hp).1, ih (i + 1)⟩

@[simp] theorem length_numbered (i : ℕ) (ops : List Op) : (numbered i ops).length = ops.length := by
  induction ops generalizing i with
  | nil => rfl
  | cons op ops ih => simp [numbered, ih]

@[simp] theorem map_op_numbered (i : ℕ) (ops : List Op) :
    (numbered i ops).map LoadedEntry.op = ops := by
  induction ops generalizing i with
  | nil => rfl
  | cons op ops ih => simp [numbered, ih]

theorem filter_numbered (N i : ℕ) (ops : List Op) :
    (numbered i ops).filter (fun p => N ≤ p.id) = (numbered i ops).drop (N - i) := by
  induction ops generalizing i with
  | nil => simp [numbered]
  | cons op ops ih =>
    rw [numbered]
    by_cases h : N ≤ i
    · rw [List.filter_cons_of_pos (by simpa using h), ih, Nat.sub_eq_zero_of_le h,
        Nat.sub_eq_zero_of_le (by omega), List.drop_zero, List.drop_zero]
    · rw [List.filter_cons_of_neg (by simpa using h), ih, show N - i = N - (i + 1) + 1 by omega,
        List.drop_succ_cons]

theorem replay_drop (ops : List Op) (hn : ∀ op ∈ ops, op.NulFree) {i N N' j : ℕ}
    (hN : N ≤ i + N') (hj : j ≤ N') {kvs : Kvs}
    (hkvs : kvs.find = (applyOps .empty (ops.take N')).find) :
    (onWalLoadEntries ⟨kvs, N⟩ ((numbered i ops).drop j)).kvs.find = (applyOps .empty ops).find := by
  have hnul : ∀ p ∈ (numbered i ops).drop j, p.op.NulFree := fun p hp =>
    hn _ (mem_numbered (List.mem_of_mem_drop hp)).2.2
  rw [onWalLoadEntries_sorted ((numbered_sorted i ops).sublist (List.drop_sublist _ _)) hnul]
  rw [drop_numbered, filter_numbered, drop_numbered, map_op_numbered, List.drop_drop,
    find_applyOps, hkvs, find_applyOps, find_applyOps, List.map_take, List.map_drop]
  exact storeAll_take_drop _ _ (show j + (N - (i + j)) ≤ N' by omega)

/-- The fuzzy checkpoint: it is numbered `N` and has seen the operations up to `N'`. Any batching of
any suffix of the log with all entries behind `N` brings it to the whole log. -/
theorem replay_converges (ops : List Op) (hn : ∀ op ∈ ops, op.NulFree) {N N' : ℕ} (hN : N ≤ N')
    (hN' : N' ≤ ops.length) {kvs : Kvs} (hkvs : kvs.find = (applyOps .empty (ops.take N')).find)
    (batches : List (List LoadedEntry)) (hsuffix : batches.flatten <:+ numbered 1 ops)
    (hcovers : ∀ p ∈ numbered 1 ops, N < p.id → p ∈ batches.flatten) :
    (replayBatches ⟨kvs, N⟩ batches).kvs.find = (applyOps .empty ops).find ∧
      (replayBatches ⟨kvs, N⟩ batches).applyId =
        (((batches.flatten.filter (fun p => N ≤ p.id)).getLast?).map LoadedEntry.id).getD N := by
  obtain ⟨j, hjlen, hj⟩ : ∃ j ≤ ops.length, batches.flatten = (numbered 1 ops).drop j :=
    ⟨_, by simp, List.suffix_iff_eq_drop.mp hsuffix⟩
  have hsorted := (numbered_sorted 1 ops).sublist hsuffix.sublist
  have hnul : ∀ p ∈ batches.flatten, p.op.NulFree := fun p hp =>
    hn _ (mem_numbered (hsuffix.subset hp)).2.2
  have hjN : j ≤ N' := by
    by_contra hlt
    -- otherwise the entry with the id `N + 1` would be missing from the suffix
    obtain ⟨op, rest, hop⟩ := List.exists_cons_of_ne_nil
      (show ops.drop N ≠ [] by rw [Ne, List.drop_eq_nil_iff]; omega)
    have hmem : (⟨1 + N, op⟩ : LoadedEntry) ∈ numbered 1 ops := by
      refine List.mem_of_mem_drop (i := N) ?_
      rw [drop_numbered, hop]
      exact List.mem_cons_self
    have hin := hcovers _ hmem (show N < 1 + N by omega)
    rw [hj, drop_numbered] at hin
    have hid : 1 + j ≤ 1 + N := (mem_numbered hin).1
    omega
  rw [replayBatches_eq]
  refine ⟨?_, by rw [onWalLoadEntries_sorted hsorted hnul]⟩
  rw [hj]
  exact replay_drop ops hn (by omega) hjN hkvs

/-- Four operations; the checkpoint is numbered 2 and has seen the third as well. -/
theorem replay_converges_small :
    (replayBatches ⟨applyOps .empty [.put ⟨[1], [10]⟩, .put ⟨[2], [20]⟩, .delete [1]], 2⟩
        [[⟨2, .put ⟨[2], [20]⟩⟩, ⟨3, .delete [1]⟩], [], [⟨4, .put ⟨[1], [11]⟩⟩]]).kvs.find [1] =
      some ⟨[1], [11]⟩ := by
  have h := (replay_converges
    [.put ⟨[1], [10]⟩, .put ⟨[2], [20]⟩, .delete [1], .put ⟨[1], [11]⟩] (by decide)
    (N := 2) (by decide : 2 ≤ 3) (by decide) rfl
    [[⟨2, .put ⟨[2], [20]⟩⟩, ⟨3, .delete [1]⟩], [], [⟨4, .put ⟨[1], [11]⟩⟩]]
    (by decide) (by decide)).1
  exact (congrFun h [1]).trans (by decide)

/-! ## A deleted key -/

theorem update_none_eq_iff {kvs : Kvs} {k k' : Bytes} (hne : k' ≠ k) :
    Function.update kvs.find k' none = Function.update kvs.find k none ↔
      kvs.find k = none ∧ kvs.find k' = none := by
  constructor
  · intro h
    have hk := congrFun h k
    have hk' := congrFun h k'
    rw [Function.update_of_ne hne.symm, Function.update_self] at hk
    rw [Function.update_self, Function.update_of_ne hne] at hk'
    exact ⟨hk, hk'.symm⟩
  · rintro ⟨hk, hk'⟩
    rw [Function.update_eq_self_iff.mpr hk'.symm, Function.update_eq_self_iff.mpr hk.symm]

/-- Where the replay of a deletion does what the deletion did. -/
theorem replay_delete_iff (codec : EntryCodec) (kvs : Kvs) (applyId d : ℕ) (key : { key : Bytes // key ≠ [] }) :
    ∃ op, walDecode codec ((Op.delete key).encode codec) = some op ∧
      (applyOp kvs (.delete key)).find = Function.update kvs.find key none ∧
      ((onWalLoadEntries ⟨kvs, applyId⟩ [⟨applyId + d, op⟩]).kvs.find = (applyOp kvs (.delete key)).find ↔
        (0 : UInt8) ∉ key.1 ∨
          kvs.find key = none ∧ kvs.find (key.1.takeWhile (· ≠ 0)) = none) := by
  obtain ⟨key, hne⟩ := key
  have hid : ¬ applyId + d < applyId := by omega
  refine ⟨.delete key, walDecode_encode codec hne, kvs.find_erase key, ?_⟩
  simp only [onWalLoadEntries, List.foldl_cons, List.foldl_nil, replayEntry, if_neg hid, applyOp,
    NodeMap.find_erase]
  by_cases hnul : (0 : UInt8) ∈ key
  · have hcut : key.takeWhile (· ≠ 0) ≠ key := fun h => (strlen_iff key).mp h hnul
    rw [update_none_eq_iff hcut]
    simp [hnul]
  · rw [(strlen_iff key).mpr hnul]
    simp [hnul]

/-- The replay of the deletion of `a\0b` removes `a`. -/
theorem replay_delete_other :
    ((walDecode wireCodec ((Op.delete [97, 0, 98]).encode wireCodec)).map fun op =>
        (onWalLoadEntries ⟨applyOps .empty [.put ⟨[97], []⟩, .put ⟨[97, 0, 98], []⟩], 2⟩
          [⟨3, op⟩]).kvs.values) = some [⟨[97, 0, 98], []⟩] ∧
      (applyOp (applyOps .empty [.put ⟨[97], []⟩, .put ⟨[97, 0, 98], []⟩]) (.delete [97, 0, 98])).values =
        [⟨[97], []⟩] := by
  decide

end FlyingKV.MiniKv
