import FlyingKV.MiniKvServer

set_option autoImplicit false

/-!
# What a step of `MiniKV` can do

`Moved` lists the transitions with their guards, and every property of runs is derived
from it. The first of them is that `m_walLock` is held by at most one thread, the one
whose program counter says so.
-/
namespace FlyingKV.MiniKv
open ByteOrder OrderedMap Wal Checkpoint

inductive Moved (codec : EntryCodec) (s : Server) : Action → Server → Label → Prop where
  | entered {req : Request} : Moved codec s (.invoke req) (invoke s req).1 (invoke s req).2
  | lockTaken {r : ℕ} {op : Op} (pc : s.requests[r]? = some (.wantLock op)) (free : s.walLock = none) :
      Moved codec s (.advance r) (moveTo { s with walLock := some (.request r) } r (.locked op)) .tau
  | appended {r : ℕ} {op : Op} {w : WalSystem} {rs : AppendEntryResult}
      (pc : s.requests[r]? = some (.locked op))
      (wal : walStep (walJudge codec) s.wal (.append (some (op.encode codec))) = some (w, .appended rs))
      (ok : rs.rc = .OK) :
      Moved codec s (.advance r) (moveTo { s with wal := w } r (.appended op rs.entryId))
        (.accepted rs.entryId op)
  | refused {r : ℕ} {op : Op} {w : WalSystem} {rs : AppendEntryResult}
      (pc : s.requests[r]? = some (.locked op))
      (wal : walStep (walJudge codec) s.wal (.append (some (op.encode codec))) = some (w, .appended rs))
      (not_ok : rs.rc ≠ .OK) :
      Moved codec s (.advance r) (moveTo { s with wal := w } r (.refused rs.errmsg)) .tau
  | noted {r : ℕ} {op : Op} {id : ℕ} (pc : s.requests[r]? = some (.appended op id)) :
      Moved codec s (.advance r)
        (moveTo { s with applyId := if s.applyId < id then id else s.applyId } r (.noted op id)) .tau
  | updated {r : ℕ} {op : Op} {id : ℕ} (pc : s.requests[r]? = some (.noted op id)) :
      Moved codec s (.advance r) (moveTo { s with kvs := applyOp s.kvs op } r (.updated op id)) .tau
  | acked {r : ℕ} {op : Op} {id : ℕ} (pc : s.requests[r]? = some (.updated op id)) :
      Moved codec s (.advance r) (moveTo { s with walLock := none } r (.done ⟨.OK, "", none⟩))
        (.acked id op)
  | failed {r : ℕ} {errmsg : String} (pc : s.requests[r]? = some (.refused errmsg)) :
      Moved codec s (.advance r) (moveTo { s with walLock := none } r (failure .InternalErr errmsg)) .tau
  | answered {r : ℕ} {key : Bytes} (pc : s.requests[r]? = some (.getting key)) :
      Moved codec s (.advance r) (moveTo s r (.done ⟨.OK, "", s.kvs.find key⟩))
        (.getAnswered r key (s.kvs.find key))
  | small {errno : ℕ} (pc : s.checker = .idle) : Moved codec s (.check errno) s .tau
  | sized {errno : ℕ} (pc : s.checker = .idle) :
      Moved codec s (.check errno) { s with checker := .sized } .tau
  | idRead {errno : ℕ} (pc : s.checker = .sized) :
      Moved codec s (.check errno) { s with checker := .hasId s.applyId } .tau
  | built {errno maxId : ℕ} (pc : s.checker = .hasId maxId) :
      Moved codec s (.check errno) { s with checker := .built maxId s.kvs.begin } .tau
  | prepared {errno maxId : ℕ} {cur : Iter} (pc : s.checker = .built maxId cur)
      (free : s.walLock = none) :
      Moved codec s (.check errno)
        { s with walLock := some .checker, checker := .prepared maxId cur } .tau
  | forked {errno maxId : ℕ} {cur : Iter} {entries : List Entry} (pc : s.checker = .prepared maxId cur)
      (travel : travelEntries s.kvs cur = some entries) :
      Moved codec s (.check errno)
        { s with checker := .forked ⟨maxId, entries.map (fun e => some (codec.serialize e))⟩ } .forked
  | released {errno : ℕ} {t : Traveller} (pc : s.checker = .forked t) :
      Moved codec s (.check errno) { s with walLock := none, checker := .waiting t } .tau
  | saved {errno : ℕ} {t : Traveller} (pc : s.checker = .waiting t) :
      Moved codec s (.check errno) (checkSave s errno t).1 (checkSave s errno t).2
  | truncLock {errno maxId : ℕ} (pc : s.checker = .saved maxId) (free : s.walLock = none) :
      Moved codec s (.check errno)
        { s with walLock := some .checker, checker := .truncating maxId } .tau
  | truncated {errno maxId : ℕ} {w : WalSystem} {rs : WalResult} (pc : s.checker = .truncating maxId)
      (wal : walStep (walJudge codec) s.wal (.truncate maxId) = some (w, .truncated rs))
      (ok : rs.rc = .OK) :
      Moved codec s (.check errno) { s with wal := w, checker := .truncated } .tau
  | finished {errno : ℕ} (pc : s.checker = .truncated) :
      Moved codec s (.check errno) { s with walLock := none, checker := .idle } .tau
  | stopped : Moved codec s .stop { s with stopped := true } .tau
  | restarted {errnoCp errnoWal : ℕ} {conf : KVConfig} {u : Server} {ok : Bool} (still : quiet s = true)
      (new : start codec (construct conf s.wal.dir s.cpDir) errnoCp errnoWal = some (u, ok)) :
      Moved codec s (.restart errnoCp errnoWal conf) u (.started ok)

section
variable {codec : EntryCodec} {s u : Server} {l : Label}

theorem advance_moved {r : ℕ} (h : advance codec s r = some (u, l)) :
    Moved codec s (.advance r) u l := by
  unfold advance at h
  cases hpc : s.requests[r]? with
  | none => simp [hpc] at h
  | some pc =>
    rw [hpc] at h
    cases pc with
    | wantLock op =>
      simp only at h
      split_ifs at h with hfree
      cases h
      exact .lockTaken hpc hfree
    | locked op =>
      simp only [requestAppend] at h
      split at h
      next w rs hw =>
        split_ifs at h with hok
        · cases h
          exact .appended hpc hw hok
        · cases h
          exact .refused hpc hw hok
      next => cases h
    | appended op id => cases h; exact .noted hpc
    | noted op id => cases h; exact .updated hpc
    | updated op id => cases h; exact .acked hpc
    | refused errmsg => cases h; exact .failed hpc
    | getting key => cases h; exact .answered hpc
    | done resp => cases h

theorem check_moved {errno : ℕ} (h : check codec s errno = some (u, l)) :
    Moved codec s (.check errno) u l := by
  unfold check at h
  cases hpc : s.checker with
  | idle =>
    simp only [hpc] at h
    split_ifs at h with hst hsize
    · cases h
      exact .sized hpc
    · cases h
      exact .small hpc
  | sized => simp only [hpc] at h; cases h; exact .idRead hpc
  | hasId maxId => simp only [hpc] at h; cases h; exact .built hpc
  | built maxId cur =>
    simp only [hpc] at h
    split_ifs at h with hfree
    cases h
    exact .prepared hpc hfree
  | prepared maxId cur =>
    simp only [hpc] at h
    cases ht : travelEntries s.kvs cur with
    | none => simp [ht] at h
    | some entries =>
      rw [ht] at h
      cases h
      exact .forked hpc ht
  | forked t => simp only [hpc] at h; cases h; exact .released hpc
  | waiting t => simp only [hpc] at h; cases h; exact .saved hpc
  | saved maxId =>
    simp only [hpc] at h
    split_ifs at h with hfree
    cases h
    exact .truncLock hpc hfree
  | truncating maxId =>
    simp only [hpc, checkTruncate] at h
    split at h
    next w rs hw =>
      split_ifs at h with hok
      cases h
      exact .truncated hpc hw hok
    next => cases h
  | truncated => simp only [hpc] at h; cases h; exact .finished hpc

theorem step_moved {a : Action} (h : step codec s a = some (u, l)) : Moved codec s a u l := by
  cases a with
  | invoke req => cases h; exact .entered
  | advance r => exact advance_moved h
  | check errno => exact check_moved h
  | stop => cases h; exact .stopped
  | restart errnoCp errnoWal conf =>
    simp only [step, restart] at h
    split_ifs at h with hq
    obtain ⟨⟨u', ok⟩, hs, he⟩ := Option.map_eq_some_iff.mp h
    cases he
    exact .restarted hq hs

end

/-! ## The lock -/

def ReqPc.holds : ReqPc → Bool
  | .locked _ => true
  | .appended _ _ => true
  | .noted _ _ => true
  | .updated _ _ => true
  | .refused _ => true
  | _ => false

def CheckPc.holds : CheckPc → Bool
  | .prepared _ _ => true
  | .forked _ => true
  | .truncating _ => true
  | .truncated => true
  | _ => false

/-- Whoever is in a section that `m_walLock` protects holds it. -/
structure LockOk (s : Server) : Prop where
  request : ∀ r pc, s.requests[r]? = some pc → pc.holds = true → s.walLock = some (.request r)
  checker : s.checker.holds = true → s.walLock = some .checker

section
variable {codec : EntryCodec} {s u : Server} {l : Label}

theorem get_set {pcs : List ReqPc} {r : ℕ} {pc₀ : ReqPc} (h : pcs[r]? = some pc₀) (pc : ReqPc) (r' : ℕ) :
    (pcs.set r pc)[r']? = if r' = r then some pc else pcs[r']? := by
  have hlt : r < pcs.length := (List.getElem?_eq_some_iff.mp h).1
  simp only [List.getElem?_set, hlt, if_true, eq_comm]

/-- The operation that a request is for. -/
def Request.op? : Request → Option Op
  | .put entry => entry.map .put
  | .delete key => some (.delete key)
  | .get _ => none

theorem enter_cases (stopped : Bool) (req : Request) :
    (∃ resp, enter stopped req = .done resp) ∨
      (∃ op, enter stopped req = .wantLock op ∧ req.op? = some op ∧ op.key ≠ []) ∨
      ∃ key, enter stopped req = .getting key := by
  cases stopped with
  | true => exact .inl ⟨_, rfl⟩
  | false =>
    cases req with
    | put entry =>
      cases entry with
      | none => exact .inl ⟨_, rfl⟩
      | some entry =>
        by_cases hk : entry.key = []
        · exact .inl ⟨_, by simp only [enter, hk]; rfl⟩
        · exact .inr (.inl ⟨.put entry, by simp [enter, hk], rfl, hk⟩)
    | delete key =>
      by_cases hk : key = []
      · exact .inl ⟨_, by simp only [enter, hk]; rfl⟩
      · exact .inr (.inl ⟨.delete key, by simp [enter, hk], rfl, hk⟩)
    | get key =>
      by_cases hk : key = []
      · exact .inl ⟨_, by simp only [enter, hk]; rfl⟩
      · exact .inr (.inr ⟨key, by simp [enter, hk]⟩)

theorem enter_holds (stopped : Bool) (req : Request) : (enter stopped req).holds = false := by
  rcases enter_cases stopped req with ⟨_, h⟩ | ⟨_, h, -⟩ | ⟨_, h⟩ <;> rw [h] <;> rfl

theorem get_invoke {req : Request} {r : ℕ} {pc : ReqPc} (h : (invoke s req).1.requests[r]? = some pc) :
    s.requests[r]? = some pc ∨ (r = s.requests.length ∧ pc = enter s.stopped req) := by
  simp only [invoke, List.getElem?_append] at h
  split_ifs at h with hr
  · exact .inl h
  · obtain ⟨hlt, he⟩ := List.getElem?_eq_some_iff.mp h
    simp only [List.length_singleton] at hlt
    exact .inr ⟨by omega, by rw [← he, List.getElem_singleton]⟩

theorem LockOk.within (h : LockOk s) {r : ℕ} {pc₀ pc : ReqPc} (hr : s.requests[r]? = some pc₀)
    (hpc : pc₀.holds = true ∨ pc.holds = false) (w : WalSystem) (kvs : Kvs) (applyId : ℕ) :
    LockOk (moveTo { s with wal := w, kvs := kvs, applyId := applyId } r pc) where
  request r' pc' h' hold := by
    change (s.requests.set r pc)[r']? = some pc' at h'
    rw [get_set hr] at h'
    split_ifs at h' with he
    · cases h'
      subst he
      exact h.request r' pc₀ hr (hpc.resolve_right (by simp [hold]))
    · exact h.request r' pc' h' hold
  checker hold := h.checker hold

theorem LockOk.leave (h : LockOk s) {r : ℕ} {pc₀ pc : ReqPc} (hr : s.requests[r]? = some pc₀)
    (hold : pc₀.holds = true) (hpc : pc.holds = false) :
    LockOk (moveTo { s with walLock := none } r pc) where
  request r' pc' h' hold' := by
    have hlock := h.request r pc₀ hr hold
    change (s.requests.set r pc)[r']? = some pc' at h'
    rw [get_set hr] at h'
    split_ifs at h' with he
    · cases h'
      simp [hpc] at hold'
    · have := h.request r' pc' h' hold'
      rw [hlock] at this
      cases this
      exact absurd rfl he
  checker hold' := by
    have := h.checker hold'
    rw [h.request r pc₀ hr hold] at this
    cases this

theorem LockOk.check (h : LockOk s) (w : WalSystem) (d : CpDir) {pc : CheckPc}
    (hpc : pc.holds = true → s.checker.holds = true) :
    LockOk { s with wal := w, cpDir := d, checker := pc } where
  request := h.request
  checker hold := h.checker (hpc hold)

theorem LockOk.checkLeave (h : LockOk s) (hold : s.checker.holds = true) {pc : CheckPc}
    (hpc : pc.holds = false) : LockOk { s with walLock := none, checker := pc } where
  request r' pc' h' hold' := by
    have := h.request r' pc' h' hold'
    rw [h.checker hold] at this
    cases this
  checker hold' := by simp [hpc] at hold'

theorem LockOk.checkEnter (h : LockOk s) (free : s.walLock = none) (pc : CheckPc) :
    LockOk { s with walLock := some .checker, checker := pc } where
  request r' pc' h' hold' := by
    have := h.request r' pc' h' hold'
    rw [free] at this
    cases this
  checker _ := rfl

theorem start_fresh {ok : Bool} {errnoCp errnoWal : ℕ} (h : start codec s errnoCp errnoWal = some (u, ok)) :
    u.requests = s.requests ∧ u.walLock = s.walLock ∧ u.checker = s.checker ∧ u.conf = s.conf := by
  simp only [start] at h
  split_ifs at h with h₁
  · cases h
    exact ⟨rfl, rfl, rfl, rfl⟩
  · split at h
    next => cases h
    next rs hrs =>
      split_ifs at h with h₂
      · cases h
        exact ⟨rfl, rfl, rfl, rfl⟩
      · simp only [startWal] at h
        split at h
        next =>
          cases h
          exact ⟨rfl, rfl, rfl, rfl⟩
        next => cases h

theorem LockOk.step (h : LockOk s) {a : Action} (hm : Moved codec s a u l) : LockOk u := by
  cases hm with
  | entered =>
    refine ⟨fun r pc hr hold => ?_, h.checker⟩
    rcases get_invoke hr with hr | ⟨-, rfl⟩
    · exact h.request r pc hr hold
    · simp [enter_holds] at hold
  | @lockTaken r op pc free =>
    refine ⟨fun r' pc' hr hold => ?_, fun hold => ?_⟩
    · change (s.requests.set r (.locked op))[r']? = some pc' at hr
      rw [get_set pc] at hr
      split_ifs at hr with he
      · rw [he]
        rfl
      · have := h.request r' pc' hr hold
        rw [free] at this
        cases this
    · have := h.checker hold
      rw [free] at this
      cases this
  | appended pc _ _ => exact h.within pc (.inl rfl) _ _ _
  | refused pc _ _ => exact h.within pc (.inl rfl) _ _ _
  | noted pc => exact h.within pc (.inl rfl) _ _ _
  | updated pc => exact h.within pc (.inl rfl) _ _ _
  | acked pc => exact h.leave pc rfl rfl
  | failed pc => exact h.leave pc rfl rfl
  | answered pc => exact h.within pc (.inr rfl) _ _ _
  | small _ => exact h
  | sized pc => exact h.check _ _ (by simp [CheckPc.holds])
  | idRead pc => exact h.check _ _ (by simp [CheckPc.holds])
  | built pc => exact h.check _ _ (by simp [CheckPc.holds])
  | prepared pc free => exact h.checkEnter free _
  | forked pc _ => exact h.check _ _ (by simp [pc, CheckPc.holds])
  | released pc => exact h.checkLeave (by rw [pc]; rfl) rfl
  | saved pc =>
    refine h.check _ _ ?_
    split_ifs <;> simp [CheckPc.holds]
  | truncLock pc free => exact h.checkEnter free _
  | truncated pc _ _ => exact h.check _ _ (by simp [pc, CheckPc.holds])
  | finished pc => exact h.checkLeave (by rw [pc]; rfl) rfl
  | stopped => exact ⟨h.request, h.checker⟩
  | restarted _ new =>
    obtain ⟨hreq, -, hcheck, -⟩ := start_fresh new
    refine ⟨fun r pc hr => ?_, fun hold => ?_⟩
    · rw [hreq] at hr
      simp [MiniKv.construct] at hr
    · rw [hcheck] at hold
      simp [MiniKv.construct, CheckPc.holds] at hold

end

end FlyingKV.MiniKv
