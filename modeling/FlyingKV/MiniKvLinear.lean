import FlyingKV.MiniKvSnapshot
import FlyingKV.MiniKvStart
import FlyingKV.WalCounter

set_option autoImplicit false

/-!
# Linearizability

Within the life of one process the map is at every moment the fold of the accepted
operations in the order of their ids, up to the one operation that is between its append
and its update. Acknowledged operations are in it, so reads see them.
-/
namespace FlyingKV.MiniKv
open ByteOrder FramedStream LastWriter Wal Checkpoint EventRun

def Label.accepted? : Label → Option (ℕ × Op)
  | .accepted id op => some (id, op)
  | _ => none

def Label.acked? : Label → Option (ℕ × Op)
  | .acked id op => some (id, op)
  | _ => none

def Action.isRestart : Action → Bool
  | .restart _ _ _ => true
  | _ => false

/-- The operations that `AppendEntry` accepted, in the order of its calls. -/
def acceptedOps (ls : List Label) : List (ℕ × Op) := ls.filterMap Label.accepted?

def ackedOps (ls : List Label) : List (ℕ × Op) := ls.filterMap Label.acked?

/-- The operation of a request between its append and its update of the map. -/
def ReqPc.pending : ReqPc → Option (ℕ × Op)
  | .appended op id => some (id, op)
  | .noted op id => some (id, op)
  | _ => none

/-- The pending operation of the request that holds `m_walLock`. -/
def inFlight (s : Server) : Option (ℕ × Op) :=
  match s.walLock with
  | some (.request r) => (s.requests[r]?).bind ReqPc.pending
  | _ => none

theorem filterMap_concat {β : Type} (f : Label → Option β) (ls : List Label) (l : Label) :
    (ls ++ [l]).filterMap f = ls.filterMap f ++ (f l).toList := by
  rw [List.filterMap_append]
  cases h : f l with
  | none => rw [List.filterMap_cons_none h, Option.toList_none, List.filterMap_nil]
  | some b => rw [List.filterMap_cons_some h, Option.toList_some, List.filterMap_nil]

theorem acceptedOps_append (ls : List Label) (l : Label) :
    acceptedOps (ls ++ [l]) = acceptedOps ls ++ l.accepted?.toList :=
  filterMap_concat Label.accepted? ls l

theorem ackedOps_append (ls : List Label) (l : Label) :
    ackedOps (ls ++ [l]) = ackedOps ls ++ l.acked?.toList :=
  filterMap_concat Label.acked? ls l

section
variable {codec : EntryCodec} {s u : Server} {l : Label}

theorem inFlight_of_holder {r : ℕ} {pc : ReqPc} (hl : s.walLock = some (.request r))
    (hr : s.requests[r]? = some pc) : inFlight s = pc.pending := by
  simp only [inFlight, hl, hr, Option.bind_some]

theorem inFlight_moveTo {r : ℕ} {pc₀ : ReqPc} (hl : s.walLock = some (.request r))
    (hr : s.requests[r]? = some pc₀) (pc : ReqPc) : inFlight (moveTo s r pc) = pc.pending :=
  inFlight_of_holder hl ((get_set hr pc r).trans (if_pos rfl))

theorem inFlight_of_other (hl : ∀ r, s.walLock ≠ some (.request r)) : inFlight s = none := by
  unfold inFlight
  split
  next r hr => exact absurd hr (hl r)
  next => rfl

theorem enter_pending (stopped : Bool) (req : Request) : (enter stopped req).pending = none := by
  rcases enter_cases stopped req with ⟨_, h⟩ | ⟨_, h, -⟩ | ⟨_, h⟩ <;> rw [h] <;> rfl

theorem inFlight_invoke (req : Request) : inFlight (invoke s req).1 = inFlight s := by
  unfold inFlight
  change (match s.walLock with
    | some (.request r) => ((s.requests ++ [enter s.stopped req])[r]?).bind ReqPc.pending
    | _ => none) = _
  split
  next r hr =>
    rw [List.getElem?_append]
    split_ifs with hlt
    · rfl
    · rw [List.getElem?_eq_none (l := s.requests) (by omega), Option.bind_none]
      cases hn : r - s.requests.length with
      | zero => exact enter_pending _ _
      | succ n => rfl
  next => rfl

/-- A request that holds no pending operation moves on to where it has none either. -/
theorem inFlight_set {r : ℕ} {pc₀ pc : ReqPc} (hr : s.requests[r]? = some pc₀)
    (hset : u.requests = s.requests.set r pc) (hu : u.walLock = s.walLock) (h : pc₀.pending = pc.pending) :
    inFlight u = inFlight s := by
  unfold inFlight
  rw [hu, hset]
  split
  next r' hr' =>
    rw [get_set hr]
    split_ifs with he
    · rw [he, hr, Option.bind_some, Option.bind_some, h]
    · rfl
  next => rfl

theorem walStep_append_counter {judge : Judge} {w w' : WalSystem} {eb : Option Bytes}
    {rs : AppendEntryResult} (h : walStep judge w (.append eb) = some (w', .appended rs)) :
    (w'.wal.currentEntryIdx = w.wal.currentEntryIdx ∧ rs.rc ≠ .OK) ∨
      (w'.wal.currentEntryIdx = (w.wal.currentEntryIdx + 1) % 2 ^ 64 ∧
        (rs.rc = .OK → rs.entryId = (w.wal.currentEntryIdx + 1) % 2 ^ 64)) := by
  have hc := appendEntry_counter w.wal eb w.dir []
  simp only [walStep] at h
  split at h
  next res hres =>
    cases h
    rcases hc with ⟨h₁, h₂⟩ | ⟨h₁, h₂⟩
    · exact .inl ⟨h₁, h₂ _ hres⟩
    · exact .inr ⟨h₁, h₂ _ hres⟩
  next => cases h

theorem walStep_truncate_counter {judge : Judge} {w w' : WalSystem} {id : ℕ}
    {r : WalReply} (h : walStep judge w (.truncate id) = some (w', r)) :
    w'.wal.currentEntryIdx = w.wal.currentEntryIdx := by
  have hc := truncate_counter w.wal id w.dir []
  simp only [walStep] at h
  split at h
  next res hres =>
    cases h
    exact hc
  next => cases h

end

/-- `applied` are the operations that the map has seen. -/
structure Linear (s : Server) (ls : List Label) (applied : List (ℕ × Op)) : Prop where
  lock : LockOk s
  split : acceptedOps ls = applied ++ (inFlight s).toList
  counter : s.wal.wal.currentEntryIdx ≤ 1 + ls.length
  ids_le : ∀ p ∈ acceptedOps ls, p.1 ≤ s.wal.wal.currentEntryIdx
  increasing : (acceptedOps ls).Pairwise (fun p q => p.1 < q.1)
  memory : s.kvs.find = storeAll (fun _ => none) (applied.map (fun p => p.2.write))
  updated : ∀ (r : ℕ) op id, s.requests[r]? = some (ReqPc.updated op id) → (id, op) ∈ applied
  acked : ∀ p ∈ ackedOps ls, p ∈ applied
  answered : ∀ pre post r key found, ls = pre ++ .getAnswered r key found :: post →
    ∀ p ∈ ackedOps pre, p.2.key = key →
      ∃ q ∈ acceptedOps pre, p.1 ≤ q.1 ∧ q.2.key = key ∧ found = q.2.effect

section
variable {codec : EntryCodec} {s u : Server} {l : Label} {ls : List Label} {applied : List (ℕ × Op)}

theorem split_concat {α : Type} {pre post ls : List α} {x l : α} (h : ls ++ [l] = pre ++ x :: post) :
    (pre = ls ∧ x = l) ∨ ∃ post', ls = pre ++ x :: post' := by
  rcases List.append_eq_append_iff.mp h with ⟨m, rfl, hm⟩ | ⟨m, rfl, hm⟩
  · cases m with
    | nil => exact .inl ⟨List.append_nil ls, (List.cons.inj hm).1.symm⟩
    | cons y m => simp at hm
  · cases m with
    | nil => exact .inl ⟨(List.append_nil pre).symm, (List.cons.inj hm).1⟩
    | cons y m => exact .inr ⟨m, by rw [(List.cons.inj hm).1]⟩

/-- In a map that is the outcome of operations with increasing ids, an operation is seen unless a
later one on its key is. -/
theorem find_of_mem {ops : List (ℕ × Op)} (hinc : ops.Pairwise (fun p q => p.1 < q.1)) {kvs : Kvs}
    (hkvs : kvs.find = storeAll (fun _ => none) (ops.map (fun p => p.2.write))) {p : ℕ × Op}
    (hp : p ∈ ops) : ∃ q ∈ ops, p.1 ≤ q.1 ∧ q.2.key = p.2.key ∧ kvs.find p.2.key = q.2.effect := by
  obtain ⟨xs, ys, rfl⟩ := List.append_of_mem hp
  obtain ⟨w, hw, hkey, hlast⟩ := lastWrite_of_mem p.2.key p.2.effect
    (xs.map (fun p => p.2.write)) (ys.map (fun p => p.2.write))
  obtain ⟨q, hq, rfl⟩ := List.mem_map.mp (show w ∈ (p :: ys).map (fun p => p.2.write) from hw)
  refine ⟨q, List.mem_append_right _ hq, ?_, hkey, ?_⟩
  · rcases List.mem_cons.mp hq with rfl | hq
    · exact le_rfl
    · exact (List.rel_of_pairwise_cons (List.pairwise_append.mp hinc).2.1 hq).le
  · rw [hkvs, storeAll_apply, List.map_append, List.map_cons]
    exact congrArg (Option.getD · none) hlast

theorem Linear.find (h : Linear s ls applied) {p : ℕ × Op} (hp : p ∈ ackedOps ls) :
    ∃ q ∈ acceptedOps ls, p.1 ≤ q.1 ∧ q.2.key = p.2.key ∧ s.kvs.find p.2.key = q.2.effect := by
  have hinc := h.increasing
  rw [h.split] at hinc ⊢
  obtain ⟨q, hq, hseen⟩ := find_of_mem (List.pairwise_append.mp hinc).1 h.memory (h.acked p hp)
  exact ⟨q, List.mem_append_left _ hq, hseen⟩

/-- A step that neither appends nor updates the map: what it acknowledges is in the map, and what
it answers comes from the map. -/
theorem Linear.frame (h : Linear s ls applied) (lock : LockOk u) (hacc : l.accepted? = none)
    (hack : ∀ p, l.acked? = some p → p ∈ applied)
    (hans : ∀ r key found, l = .getAnswered r key found → found = s.kvs.find key)
    (flight : inFlight u = inFlight s) (kvs : u.kvs = s.kvs)
    (counter : s.wal.wal.currentEntryIdx ≤ u.wal.wal.currentEntryIdx ∧
      u.wal.wal.currentEntryIdx ≤ s.wal.wal.currentEntryIdx + 1)
    (updated : ∀ (r : ℕ) op id, u.requests[r]? = some (ReqPc.updated op id) →
      s.requests[r]? = some (ReqPc.updated op id)) : Linear u (ls ++ [l]) applied := by
  have hsame : acceptedOps (ls ++ [l]) = acceptedOps ls := by
    rw [acceptedOps_append, hacc, Option.toList_none, List.append_nil]
  refine ⟨lock, ?_, ?_, ?_, ?_, ?_, fun r op id hr => h.updated r op id (updated r op id hr), ?_, ?_⟩
  · rw [hsame, flight, h.split]
  · have := h.counter
    simp only [List.length_append, List.length_singleton]
    omega
  · intro p hp
    rw [hsame] at hp
    exact (h.ids_le p hp).trans counter.1
  · rw [hsame]
    exact h.increasing
  · rw [kvs, h.memory]
  · intro p hp
    rw [ackedOps_append] at hp
    rcases List.mem_append.mp hp with hp | hp
    · exact h.acked p hp
    · exact hack p (Option.mem_toList.mp hp)
  · intro pre post r key found he p hp hkey
    rcases split_concat he with ⟨rfl, hl⟩ | ⟨post', rfl⟩
    · obtain ⟨q, hq, hle, hqk, hfind⟩ := h.find hp
      rw [hans r key found hl.symm, ← hkey]
      exact ⟨q, hq, hle, hqk, hfind⟩
    · exact h.answered pre post' r key found rfl p hp hkey

theorem Linear.appended (h : Linear s ls applied) {r : ℕ} {op : Op} {w : WalSystem}
    {rs : AppendEntryResult} (hlen : ls.length + 2 < 2 ^ 64) (pc : s.requests[r]? = some (.locked op))
    (wal : walStep (walJudge codec) s.wal (.append (some (op.encode codec))) = some (w, .appended rs))
    (ok : rs.rc = .OK) :
    Linear (moveTo { s with wal := w } r (.appended op rs.entryId)) (ls ++ [.accepted rs.entryId op])
      applied := by
  have hlock := h.lock.request r _ pc rfl
  have hcounter := h.counter
  have hnone : inFlight s = none := inFlight_of_holder hlock pc
  have hsplit := h.split
  rw [hnone, Option.toList_none, List.append_nil] at hsplit
  have hflight : inFlight (moveTo { s with wal := w } r (.appended op rs.entryId)) =
      some (rs.entryId, op) := inFlight_moveTo (s := { s with wal := w }) hlock pc _
  -- the new id is one more than the counter, so larger than every id before
  obtain ⟨hw, hid⟩ : w.wal.currentEntryIdx = s.wal.wal.currentEntryIdx + 1 ∧
      rs.entryId = s.wal.wal.currentEntryIdx + 1 := by
    have hmod : (s.wal.wal.currentEntryIdx + 1) % 2 ^ 64 = s.wal.wal.currentEntryIdx + 1 :=
      Nat.mod_eq_of_lt (by omega)
    rcases walStep_append_counter wal with ⟨-, hno⟩ | ⟨h₁, h₂⟩
    · exact absurd ok hno
    · exact ⟨h₁.trans hmod, (h₂ ok).trans hmod⟩
  have hacc : acceptedOps (ls ++ [.accepted rs.entryId op]) = applied ++ [(rs.entryId, op)] := by
    rw [acceptedOps_append, hsplit]
    rfl
  refine ⟨h.lock.within pc (.inl rfl) _ _ _, by rw [hacc, hflight]; rfl, ?_, ?_, ?_, h.memory, ?_, ?_, ?_⟩
  · change w.wal.currentEntryIdx ≤ _
    simp only [List.length_append, List.length_singleton]
    omega
  · intro p hp
    change p.1 ≤ w.wal.currentEntryIdx
    rw [hacc] at hp
    rcases List.mem_append.mp hp with hp | hp
    · have := h.ids_le p (hsplit ▸ hp)
      omega
    · rw [List.mem_singleton.mp hp]
      omega
  · rw [hacc]
    refine List.pairwise_append.mpr ⟨hsplit ▸ h.increasing, by simp, fun p hp q hq => ?_⟩
    have := h.ids_le p (hsplit ▸ hp)
    rw [List.mem_singleton.mp hq]
    change p.1 < rs.entryId
    omega
  · intro r' op' id' hr'
    change (s.requests.set r _)[r']? = _ at hr'
    rw [get_set pc] at hr'
    split_ifs at hr'
    · cases hr'
    · exact h.updated r' op' id' hr'
  · intro p hp
    rw [ackedOps_append] at hp
    exact h.acked p (by simpa [Label.acked?] using hp)
  · intro pre post r' key found he
    rcases split_concat he with ⟨-, hl⟩ | ⟨post', rfl⟩
    · cases hl
    · exact h.answered pre post' r' key found rfl

theorem Linear.update (h : Linear s ls applied) {r : ℕ} {op : Op} {id : ℕ}
    (pc : s.requests[r]? = some (.noted op id)) :
    Linear (moveTo { s with kvs := applyOp s.kvs op } r (.updated op id)) (ls ++ [.tau])
      (applied ++ [(id, op)]) := by
  have hlock := h.lock.request r _ pc rfl
  have hflight : inFlight s = some (id, op) := inFlight_of_holder hlock pc
  have hnone : inFlight (moveTo { s with kvs := applyOp s.kvs op } r (.updated op id)) = none :=
    inFlight_moveTo (s := { s with kvs := applyOp s.kvs op }) hlock pc _
  have hacc : acceptedOps (ls ++ [.tau]) = acceptedOps ls := by
    rw [acceptedOps_append]
    exact List.append_nil _
  refine ⟨h.lock.within pc (.inl rfl) _ _ _, ?_, ?_, ?_, ?_, ?_, ?_, ?_, ?_⟩
  · rw [hacc, hnone, h.split, hflight, Option.toList_none, List.append_nil]
    rfl
  · have := h.counter
    change s.wal.wal.currentEntryIdx ≤ _
    simp only [List.length_append, List.length_singleton]
    omega
  · rw [hacc]
    exact h.ids_le
  · rw [hacc]
    exact h.increasing
  · change (applyOp s.kvs op).find = _
    rw [find_applyOp, h.memory, List.map_append, storeAll_append]
    rfl
  · intro r' op' id' hr'
    change (s.requests.set r _)[r']? = _ at hr'
    rw [get_set pc] at hr'
    split_ifs at hr'
    · cases hr'
      exact List.mem_append_right _ (List.mem_singleton_self _)
    · exact List.mem_append_left _ (h.updated r' op' id' hr')
  · intro p hp
    rw [ackedOps_append] at hp
    exact List.mem_append_left _ (h.acked p (by simpa [Label.acked?] using hp))
  · intro pre post r' key found he
    rcases split_concat he with ⟨-, hl⟩ | ⟨post', rfl⟩
    · cases hl
    · exact h.answered pre post' r' key found rfl

theorem enterLabel_quiet (r : ℕ) (pc : ReqPc) : (enterLabel r pc).accepted? = none ∧
    (enterLabel r pc).acked? = none ∧ ∀ r' key found, enterLabel r pc ≠ .getAnswered r' key found := by
  cases pc <;> exact ⟨rfl, rfl, fun _ _ _ h => by cases h⟩

theorem updated_of_set {r : ℕ} {pc₀ pc : ReqPc} (hr : s.requests[r]? = some pc₀)
    (hpc : ∀ op id, pc ≠ .updated op id) (r' : ℕ) (op : Op) (id : ℕ)
    (h : (s.requests.set r pc)[r']? = some (ReqPc.updated op id)) :
    s.requests[r']? = some (ReqPc.updated op id) := by
  rw [get_set hr] at h
  split_ifs at h
  · exact absurd (Option.some.inj h) (hpc op id)
  · exact h

theorem Linear.check (h : Linear s ls applied) (lock : LockOk u) (hacc : l.accepted? = none)
    (hack : l.acked? = none) (hans : ∀ r key found, l ≠ .getAnswered r key found)
    (req : u.requests = s.requests) (flight : inFlight u = inFlight s) (kvs : u.kvs = s.kvs)
    (counter : u.wal.wal.currentEntryIdx = s.wal.wal.currentEntryIdx) :
    Linear u (ls ++ [l]) applied :=
  h.frame lock hacc (by simp [hack]) (fun r key found hl => absurd hl (hans r key found)) flight kvs
    ⟨counter.ge, by omega⟩ (fun r op id hr => req ▸ hr)

theorem Linear.step (h : Linear s ls applied) (hlen : ls.length + 2 < 2 ^ 64) {a : Action}
    (ha : a.isRestart = false) (hm : Moved codec s a u l) :
    ∃ applied', Linear u (ls ++ [l]) applied' := by
  have hlock := h.lock.step hm
  have hcounter := h.counter
  cases hm with
  | @entered req =>
    obtain ⟨h₁, h₂, h₃⟩ := enterLabel_quiet s.requests.length (enter s.stopped req)
    refine ⟨applied, h.frame hlock h₁ (fun p hp => ?_) (fun r key found hl => absurd hl (h₃ r key found))
      (inFlight_invoke req) rfl ⟨le_rfl, Nat.le_succ _⟩ (fun r op id hr => ?_)⟩
    · rw [show (invoke s req).2.acked? = none from h₂] at hp
      cases hp
    · rcases get_invoke hr with hr | ⟨-, he⟩
      · exact hr
      · rcases enter_cases s.stopped req with ⟨_, h⟩ | ⟨_, h, -⟩ | ⟨_, h⟩ <;> rw [h] at he <;> cases he
  | @lockTaken r op pc free =>
    refine ⟨applied, h.frame hlock rfl (by simp [Label.acked?]) (by simp) ?_ rfl
      ⟨le_rfl, Nat.le_succ _⟩ (updated_of_set pc (by simp))⟩
    rw [inFlight_moveTo (s := { s with walLock := some (.request r) }) rfl pc,
      inFlight_of_other (by simp [free])]
    rfl
  | appended pc wal ok => exact ⟨applied, h.appended hlen pc wal ok⟩
  | refused pc wal not_ok =>
    refine ⟨applied, h.frame hlock rfl (by simp [Label.acked?]) (by simp)
      (inFlight_set pc rfl rfl rfl) rfl ?_ (updated_of_set pc (by simp))⟩
    rcases walStep_append_counter wal with ⟨h₁, -⟩ | ⟨h₁, -⟩
    · exact ⟨h₁.ge, h₁.le.trans (Nat.le_succ _)⟩
    · rw [Nat.mod_eq_of_lt (by omega)] at h₁
      exact ⟨(Nat.le_succ _).trans h₁.ge, h₁.le⟩
  | noted pc =>
    exact ⟨applied, h.frame hlock rfl (by simp [Label.acked?]) (by simp)
      (inFlight_set pc rfl rfl rfl) rfl ⟨le_rfl, Nat.le_succ _⟩ (updated_of_set pc (by simp))⟩
  | updated pc => exact ⟨_, h.update pc⟩
  | @acked r op id pc =>
    have hmem := h.updated r op id pc
    refine ⟨applied, h.frame hlock rfl (fun p hp => by cases hp; exact hmem) (by simp) ?_ rfl
      ⟨le_rfl, Nat.le_succ _⟩ (updated_of_set pc (by simp))⟩
    rw [inFlight_of_holder (h.lock.request r _ pc rfl) pc]
    exact inFlight_of_other (by simp [moveTo])
  | @failed r errmsg pc =>
    refine ⟨applied, h.frame hlock rfl (by simp [Label.acked?]) (by simp) ?_ rfl
      ⟨le_rfl, Nat.le_succ _⟩ (updated_of_set pc (by simp [failure]))⟩
    rw [inFlight_of_holder (h.lock.request r _ pc rfl) pc]
    exact inFlight_of_other (by simp [moveTo])
  | answered pc =>
    refine ⟨applied, h.frame hlock rfl (by simp [Label.acked?]) (fun r' key' found' hl => ?_)
      (inFlight_set pc rfl rfl rfl) rfl ⟨le_rfl, Nat.le_succ _⟩ (updated_of_set pc (by simp))⟩
    cases hl
    rfl
  | small _ => exact ⟨applied, h.check hlock rfl rfl (by simp) rfl rfl rfl rfl⟩
  | sized _ => exact ⟨applied, h.check hlock rfl rfl (by simp) rfl rfl rfl rfl⟩
  | idRead _ => exact ⟨applied, h.check hlock rfl rfl (by simp) rfl rfl rfl rfl⟩
  | built _ => exact ⟨applied, h.check hlock rfl rfl (by simp) rfl rfl rfl rfl⟩
  | prepared _ free =>
    exact ⟨applied, h.check hlock rfl rfl (by simp) rfl
      ((inFlight_of_other (by simp)).trans (inFlight_of_other (by simp [free])).symm) rfl rfl⟩
  | forked _ _ => exact ⟨applied, h.check hlock rfl rfl (by simp) rfl rfl rfl rfl⟩
  | released pc =>
    have hheld := h.lock.checker (by rw [pc]; rfl)
    exact ⟨applied, h.check hlock rfl rfl (by simp) rfl
      ((inFlight_of_other (by simp)).trans (inFlight_of_other (by simp [hheld])).symm) rfl rfl⟩
  | saved _ => exact ⟨applied, h.check hlock rfl rfl (by simp [checkSave]) rfl rfl rfl rfl⟩
  | truncLock _ free =>
    exact ⟨applied, h.check hlock rfl rfl (by simp) rfl
      ((inFlight_of_other (by simp)).trans (inFlight_of_other (by simp [free])).symm) rfl rfl⟩
  | truncated _ wal _ =>
    exact ⟨applied, h.check hlock rfl rfl (by simp) rfl rfl rfl (walStep_truncate_counter wal)⟩
  | finished pc =>
    have hheld := h.lock.checker (by rw [pc]; rfl)
    exact ⟨applied, h.check hlock rfl rfl (by simp) rfl
      ((inFlight_of_other (by simp)).trans (inFlight_of_other (by simp [hheld])).symm) rfl rfl⟩
  | stopped => exact ⟨applied, h.check hlock rfl rfl (by simp) rfl rfl rfl rfl⟩
  | restarted _ _ => cases ha

theorem linear_first {conf : KVConfig} {w : WalSystem} (h : Started codec conf ⟨0, 0, []⟩ w [] s)
    (hw : w.wal.currentEntryIdx = 1) : Linear s [] [] where
  lock := ⟨fun r pc hr => by simp [h.requests] at hr, fun hold => by simp [h.checker, CheckPc.holds] at hold⟩
  split := by
    rw [inFlight_of_other (by simp [h.walLock])]
    rfl
  counter := by rw [h.wal, hw]; rfl
  ids_le := by simp [acceptedOps]
  increasing := by simp [acceptedOps]
  memory := (congrArg (fun r => r.kvs.find) h.replay).symm
  updated r op id hr := by simp [h.requests] at hr
  acked := by simp [ackedOps]
  answered pre post r key found he := by simp at he

theorem linear_history {conf : KVConfig} {errnoCp errnoWal : ℕ} {es : List Action}
    (hes : ∀ a ∈ es, a.isRestart = false) (hlen : es.length + 2 < 2 ^ 64)
    (hrun : kvHistory codec conf errnoCp errnoWal es = some (s, ls)) :
    ∃ applied, Linear s ls applied := by
  obtain ⟨u, w, hu, hs, hready, -⟩ := start_first codec conf errnoCp errnoWal
  rw [kvHistory, hu, Option.bind_some] at hrun
  have hI := run_invariant (P := fun _ a => Action.isRestart a = false)
    (I := fun s tr => tr.length + 2 < 2 ^ 64 → ∃ applied, Linear s (tr.map Prod.snd) applied)
    (fun s tr a v l ih ha hstep hb => by
      rw [List.length_append, List.length_singleton] at hb
      obtain ⟨applied, h⟩ := ih (by omega)
      rw [List.map_append]
      exact h.step (by rw [List.length_map]; omega) ha (step_moved hstep)) []
    (fun _ => ⟨[], linear_first hs hready.counter⟩) (along_of_forall (fun a ha _ => hes a ha) u) hrun
  rw [List.nil_append, List.map_snd_zip (length_run hrun).le, List.length_zip, length_run hrun] at hI
  exact hI (by omega)

/-- At every moment the map is the fold of the accepted operations, whose ids increase, up to the
pending one of the request that holds the lock; and a read that begins after an operation on
its key was acknowledged answers with that operation or a later one. -/
theorem requests_linearizable (conf : KVConfig) (errnoCp errnoWal : ℕ) {es : List Action}
    (hes : ∀ a ∈ es, a.isRestart = false) (hlen : es.length + 2 < 2 ^ 64)
    (hrun : kvHistory codec conf errnoCp errnoWal es = some (s, ls)) :
    (acceptedOps ls).Pairwise (fun p q => p.1 < q.1) ∧
    (∃ applied, acceptedOps ls = applied ++ (inFlight s).toList ∧
      s.kvs.find = (applyOps .empty (applied.map Prod.snd)).find) ∧
    (∀ (r : ℕ) (pc : ReqPc), s.requests[r]? = some pc → pc.pending ≠ none → inFlight s = pc.pending) ∧
    ∀ pre₁ pre₂ pre₃ post id op r found,
      ls = pre₁ ++ .acked id op :: (pre₂ ++ .getInvoked r op.key ::
        (pre₃ ++ .getAnswered r op.key found :: post)) →
      ∃ p ∈ acceptedOps ls, id ≤ p.1 ∧ p.2.key = op.key ∧ found = p.2.effect := by
  obtain ⟨applied, h⟩ := linear_history hes hlen hrun
  refine ⟨h.increasing, ⟨applied, h.split, ?_⟩, fun r pc hr hp => ?_, ?_⟩
  · rw [h.memory, find_applyOps, List.map_map]
    rfl
  · refine inFlight_of_holder (h.lock.request r pc hr ?_) hr
    cases pc <;> first | rfl | exact absurd rfl hp
  · intro pre₁ pre₂ pre₃ post id op r found hls
    have hsplit : ls = (pre₁ ++ .acked id op :: (pre₂ ++ .getInvoked r op.key :: pre₃)) ++
        .getAnswered r op.key found :: post := by
      rw [hls]
      simp only [List.append_assoc, List.cons_append]
    have hmem : (id, op) ∈ ackedOps (pre₁ ++ .acked id op :: (pre₂ ++ .getInvoked r op.key :: pre₃)) :=
      List.mem_filterMap.mpr ⟨.acked id op, by simp, rfl⟩
    obtain ⟨q, hq, hle, hkey, hfound⟩ := h.answered _ post r op.key found hsplit (id, op) hmem rfl
    refine ⟨q, ?_, hle, hkey, hfound⟩
    rw [hsplit, acceptedOps, List.filterMap_append]
    exact List.mem_append_left _ hq

end

/-- Two writes of one key; a read comes after the first is acknowledged and overlaps the second. -/
def overlapping : List Action :=
  [.invoke (.put (some ⟨[97], [1]⟩)), .invoke (.put (some ⟨[97], [2]⟩)),
    .advance 0, .advance 0, .advance 0, .advance 0, .advance 0, .invoke (.get [97]),
    .advance 1, .advance 1, .advance 1, .advance 1, .advance 2, .advance 1]

theorem requests_linearizable_overlapping :
    ∃ s ls, kvHistory wireCodec smallKv 0 0 overlapping = some (s, ls) ∧
      ∃ p ∈ acceptedOps ls, 2 ≤ p.1 ∧ p.2.key = [97] ∧ some ⟨[97], [2]⟩ = p.2.effect := by
  have hls : (kvHistory wireCodec smallKv 0 0 overlapping).map Prod.snd =
      some (([.tau, .tau, .tau, .accepted 2 (.put ⟨[97], [1]⟩), .tau, .tau] : List Label) ++
        Label.acked 2 (.put ⟨[97], [1]⟩) :: (([] : List Label) ++ Label.getInvoked 2 [97] ::
        (([.tau, .accepted 3 (.put ⟨[97], [2]⟩), .tau, .tau] : List Label) ++
          Label.getAnswered 2 [97] (some ⟨[97], [2]⟩) :: [Label.acked 3 (.put ⟨[97], [2]⟩)]))) := by
    decide +kernel
  obtain ⟨⟨s, ls⟩, hrun, rfl⟩ := Option.map_eq_some_iff.mp hls
  obtain ⟨-, -, -, hget⟩ := requests_linearizable smallKv 0 0 (by decide) (by decide) hrun
  exact ⟨s, _, hrun, hget _ _ _ _ 2 (.put ⟨[97], [1]⟩) 2 (some ⟨[97], [2]⟩) rfl⟩

end FlyingKV.MiniKv
