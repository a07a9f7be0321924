import FlyingKV.MiniKvDurable

set_option autoImplicit false

/-!
# Crashes

The machine goes down between two steps of the server, whatever is in progress, and a new process starts on what
is on the disk. `AppendEntry`, `Truncate`, `Start` and the child's `Save` are one step each; what a crash inside one
of them does is the subject of `WalAppendCrash` and `CheckpointCrash`. Requests that were in progress are forgotten;
one whose entry is in the log takes effect all the same.
-/
namespace FlyingKV.MiniKv
open FileDir LastWriter Wal Checkpoint EventRun

/-- A step of the server, or a crash and the start of the next process. -/
inductive Fate where
  | act (a : Action)
  | crash (errnoCp errnoWal : ℕ) (conf : KVConfig)

/-- What a crash is for the directories. -/
def Fate.action : Fate → Action
  | .act a => a
  | .crash errnoCp errnoWal conf => .restart errnoCp errnoWal conf

section
variable (codec : EntryCodec)

def crashStep (w : Watched) : Fate → Option (Watched × Label)
  | .act a => watch codec w a
  | .crash errnoCp errnoWal conf =>
    (start codec (construct conf w.server.wal.dir w.server.cpDir) errnoCp errnoWal).map
      fun o => (w.after o.1 (.started o.2), .started o.2)

/-- A run with crashes of a server that is started on empty directories. -/
def crashHistory (conf : KVConfig) (errnoCp errnoWal : ℕ) (es : List Fate) : Option (Watched × List Label) :=
  (start codec (construct conf Dir.empty Dir.empty) errnoCp errnoWal).bind
    (fun o => run (crashStep codec) ⟨o.1, 1, 1⟩ es)

/-- There is room for what is appended, and neither a truncation nor the clean-up of a new process takes what the
snapshot has not seen. -/
def Careful (w : Watched) (f : Fate) : Prop :=
  Roomy codec w.server f.action ∧ KeepsLog w.server f.action ∧ Sheltered w f.action

instance decidableCareful (w : Watched) (f : Fate) : Decidable (Careful codec w f) :=
  inferInstanceAs (Decidable (_ ∧ _ ∧ _))

/-- `P` at every step of a run with crashes after the first start. -/
def AlongCrashes (conf : KVConfig) (errnoCp errnoWal : ℕ) (P : Watched → Fate → Prop) (es : List Fate) : Prop :=
  ∀ o ∈ start codec (construct conf Dir.empty Dir.empty) errnoCp errnoWal,
    Along (crashStep codec) P ⟨o.1, 1, 1⟩ es

instance decidableAlongCrashes (conf : KVConfig) (errnoCp errnoWal : ℕ) (P : Watched → Fate → Prop)
    [∀ w f, Decidable (P w f)] (es : List Fate) : Decidable (AlongCrashes codec conf errnoCp errnoWal P es) :=
  inferInstanceAs (Decidable (∀ o ∈ _, Along (crashStep codec) P ⟨Prod.fst o, 1, 1⟩ es))

/-- The operation of a request that is in the log. -/
def ReqPc.logged? : ReqPc → Option (ℕ × Op)
  | .appended op id | .noted op id | .updated op id => some (id, op)
  | _ => none

structure Surviving (w : Watched) (ls : List Label) : Prop where
  store : ∃ st, Stored codec w.server st ∧ Durable codec w st ((acceptedOps ls).map Prod.snd)
  ids : (acceptedOps ls).map Prod.fst = List.range' 2 (acceptedOps ls).length
  logged : ∀ (r : ℕ) pc p, w.server.requests[r]? = some pc → pc.logged? = some p → p ∈ acceptedOps ls
  acked : ∀ p ∈ ackedOps ls, p ∈ acceptedOps ls

end

section
variable {codec : EntryCodec} {w : Watched} {s u : Server} {ls : List Label} {l : Label}

theorem enter_logged (stopped : Bool) (req : Request) : (enter stopped req).logged? = none := by
  rcases enter_cases stopped req with ⟨_, h⟩ | ⟨_, h, -⟩ | ⟨_, h⟩ <;> rw [h] <;> rfl

/-- What is in the log has been accepted, and only such operations are acknowledged. -/
theorem logged_step {a : Action} (hm : Moved codec s a u l)
    (h : ∀ (r : ℕ) pc p, s.requests[r]? = some pc → pc.logged? = some p → p ∈ acceptedOps ls) :
    (∀ (r : ℕ) pc p, u.requests[r]? = some pc → pc.logged? = some p → p ∈ acceptedOps (ls ++ [l])) ∧
      ∀ p, l.acked? = some p → p ∈ acceptedOps ls := by
  have hmore : ∀ p, p ∈ acceptedOps ls → p ∈ acceptedOps (ls ++ [l]) := by
    intro p hp
    rw [acceptedOps_append]
    exact List.mem_append_left _ hp
  have hset : ∀ {r : ℕ} {pc₀ : ReqPc} (pc : ReqPc), s.requests[r]? = some pc₀ →
      (∀ p, pc.logged? = some p → p ∈ acceptedOps (ls ++ [l])) → ∀ (r' : ℕ) pc' p,
        (s.requests.set r pc)[r']? = some pc' → pc'.logged? = some p → p ∈ acceptedOps (ls ++ [l]) := by
    intro r pc₀ pc hr hnew r' pc' p hr' hp
    rw [get_set hr] at hr'
    split_ifs at hr' with heq
    · cases hr'
      exact hnew p hp
    · exact hmore p (h r' pc' p hr' hp)
  cases hm with
  | @entered req =>
    refine ⟨fun r pc p hr hp => ?_, fun p hp => ?_⟩
    · rcases get_invoke hr with hr | ⟨-, rfl⟩
      · exact hmore p (h r pc p hr hp)
      · rw [enter_logged] at hp
        cases hp
    · rw [show (invoke s req).2.acked? = none from (enterLabel_quiet _ _).2.1] at hp
      cases hp
  | lockTaken pc | refused pc | failed pc | answered pc =>
    exact ⟨hset _ pc (fun p hp => by cases hp), fun p hp => by cases hp⟩
  | @appended r op w rs pc wal ok =>
    refine ⟨hset _ pc (fun p hp => ?_), fun p hp => by cases hp⟩
    rw [acceptedOps_append]
    exact List.mem_append_right _ (by cases hp; exact List.mem_singleton_self _)
  | noted pc => exact ⟨hset _ pc (fun p hp => hmore p (h _ _ p pc hp)), fun p hp => by cases hp⟩
  | updated pc => exact ⟨hset _ pc (fun p hp => hmore p (h _ _ p pc hp)), fun p hp => by cases hp⟩
  | @acked r op id pc =>
    refine ⟨hset _ pc (fun p hp => by cases hp), fun p hp => ?_⟩
    cases hp
    exact h _ _ _ pc rfl
  | saved pc => exact ⟨fun r pc p hr hp => hmore p (h r pc p hr hp), fun p hp => by cases hp⟩
  | small | sized | idRead | built | prepared | forked | released | truncLock | truncated | finished | stopped =>
    exact ⟨fun r pc p hr hp => hmore p (h r pc p hr hp), fun p hp => by cases hp⟩
  | restarted still new =>
    refine ⟨fun r pc p hr hp => ?_, fun p hp => by cases hp⟩
    rw [(start_fresh new).1] at hr
    cases hr

theorem accepted_id {st : Store} {ops : List Op} (hst : Stored codec w.server st) (hdur : Durable codec w st ops)
    {a : Action} (hroom : Roomy codec w.server a) (hm : Moved codec w.server a u l) :
    ∀ p, l.accepted? = some p → p.1 = 2 + ops.length := by
  intro p hp
  cases hm with
  | @entered req =>
    rw [show (invoke w.server req).2.accepted? = none from (enterLabel_quiet _ _).1] at hp
    cases hp
  | @appended r op wal rs pc hwal ok =>
    cases hp
    rcases hst.append pc hroom hwal with ⟨hno, -⟩ | ⟨rfl, -⟩
    · exact absurd ok hno
    · change lastId st.log + 1 = _
      rw [hdur.last]
      omega
  | _ => cases hp

theorem Surviving.accepted (h : Surviving codec w ls) (hid : ∀ p, l.accepted? = some p → p.1 = 2 + (acceptedOps ls).length) :
    (acceptedOps (ls ++ [l])).map Prod.fst = List.range' 2 (acceptedOps (ls ++ [l])).length := by
  rw [acceptedOps_append]
  cases hl : l.accepted? with
  | none =>
    rw [Option.toList_none, List.append_nil]
    exact h.ids
  | some p =>
    rw [Option.toList_some, List.map_append, List.map_singleton, List.length_append, List.length_singleton, h.ids,
      List.range'_1_concat, hid p hl]

theorem Surviving.act (h : Surviving codec w ls) {a : Action} (hroom : Roomy codec w.server a) (hk : KeepsLog w.server a)
    (hsh : Sheltered w a) (hm : Moved codec w.server a u l) : Surviving codec (w.after u l) (ls ++ [l]) := by
  obtain ⟨st, hst, hdur⟩ := h.store
  obtain ⟨hlogged, hacked⟩ := logged_step hm h.logged
  refine ⟨⟨_, hst.step hroom hm, ?_⟩, h.accepted ?_, hlogged, fun p hp => ?_⟩
  · rw [acceptedOps_append, List.map_append]
    exact hdur.step hst hroom hk hsh hm
  · have := accepted_id hst hdur hroom hm
    rwa [List.length_map] at this
  · rw [acceptedOps_append]
    rw [ackedOps_append] at hp
    rcases List.mem_append.mp hp with hp | hp
    · exact List.mem_append_left _ (h.acked p hp)
    · exact List.mem_append_left _ (hacked p (Option.mem_toList.mp hp))

theorem Surviving.crash (h : Surviving codec w ls) {errnoCp errnoWal : ℕ} {conf : KVConfig} (hconf : Modest conf)
    (hk : KeepsLog w.server (.restart errnoCp errnoWal conf)) (hsh : Sheltered w (.restart errnoCp errnoWal conf))
    {ok : Bool} (hu : start codec (construct conf w.server.wal.dir w.server.cpDir) errnoCp errnoWal = some (u, ok)) :
    Surviving codec (w.after u (.started ok)) (ls ++ [.started ok]) := by
  obtain ⟨st, hst, hdur⟩ := h.store
  obtain ⟨u', wal, hu', hs, hw⟩ := hst.start hconf errnoCp errnoWal
  cases hu'.symm.trans hu
  have hacc : acceptedOps (ls ++ [.started true]) = acceptedOps ls := by
    rw [acceptedOps_append]
    exact List.append_nil _
  have hack : ackedOps (ls ++ [.started true]) = ackedOps ls := by
    rw [ackedOps_append]
    exact List.append_nil _
  rw [after_same (by simp) (by rw [settled_meta hs.settled, settled_meta hst.settled])]
  refine ⟨⟨_, hst.restart hs hw, ?_⟩, ?_, fun r pc p hr => ?_, ?_⟩
  · rw [hacc]
    exact hdur.restart hst hk hsh hs
  · rw [hacc]
    exact h.ids
  · rw [show (Watched.server ⟨u, w.forkId, w.covered⟩).requests = [] from hs.requests] at hr
    cases hr
  · rw [hacc, hack]
    exact h.acked

theorem Surviving.step (h : Surviving codec w ls) {f : Fate} (hf : Careful codec w f) {v : Watched}
    (hstep : crashStep codec w f = some (v, l)) : Surviving codec v (ls ++ [l]) := by
  obtain ⟨hroom, hk, hsh⟩ := hf
  cases f with
  | act a =>
    obtain ⟨o, ho, he⟩ := Option.map_eq_some_iff.mp hstep
    cases he
    exact h.act hroom hk hsh (step_moved ho)
  | crash errnoCp errnoWal conf =>
    obtain ⟨o, ho, he⟩ := Option.map_eq_some_iff.mp hstep
    cases he
    exact h.crash hroom hk hsh ho

theorem surviving_history {conf : KVConfig} {errnoCp errnoWal : ℕ} {es : List Fate}
    (hP : AlongCrashes codec conf errnoCp errnoWal (Careful codec) es)
    (hrun : crashHistory codec conf errnoCp errnoWal es = some (w, ls)) : Surviving codec w ls := by
  obtain ⟨u, wal, hu, hs, hready, -⟩ := start_first codec conf errnoCp errnoWal
  rw [crashHistory, hu, Option.bind_some] at hrun
  have hfirst : Surviving codec ⟨u, 1, 1⟩ [] := by
    refine ⟨⟨_, stored_first hs hready, durable_first hs⟩, rfl, fun r pc p hr => ?_, fun p hp => ?_⟩
    · rw [show (Watched.server ⟨u, 1, 1⟩).requests = [] from hs.requests] at hr
      cases hr
    · cases hp
  have hI := run_invariant (P := Careful codec) (I := fun w tr => Surviving codec w (tr.map Prod.snd))
    (fun w tr f v l hw hf hstep => by
      rw [List.map_append]
      exact hw.step hf hstep) [] hfirst (hP _ hu) hrun
  rwa [List.nil_append, List.map_snd_zip (length_run hrun).le] at hI

/-- In a run with crashes between any two steps, none of them inside an operation on the disk, whose steps are
careful: whenever the machine goes down, the next process starts, with a map that is the outcome of all operations
accepted by all processes before, and these have the ids from 2 on without a gap. So every acknowledged operation
is seen after the crash, unless a later one on its key is. -/
theorem acknowledged_writes_survive (conf : KVConfig) (errnoCp errnoWal : ℕ) {es : List Fate}
    (hP : AlongCrashes codec conf errnoCp errnoWal (Careful codec) es)
    (hrun : crashHistory codec conf errnoCp errnoWal es = some (w, ls)) (errnoCp' errnoWal' : ℕ) {conf' : KVConfig}
    (hconf : Modest conf') (hlast : Sheltered w (.restart errnoCp' errnoWal' conf')) :
    ∃ u, start codec (construct conf' w.server.wal.dir w.server.cpDir) errnoCp' errnoWal' = some (u, true) ∧
      u.kvs.find = (applyOps .empty ((acceptedOps ls).map Prod.snd)).find ∧
      (acceptedOps ls).map Prod.fst = List.range' 2 (acceptedOps ls).length ∧
      ∀ p ∈ ackedOps ls, ∃ q ∈ acceptedOps ls, p.1 ≤ q.1 ∧ q.2.key = p.2.key ∧
        u.kvs.find p.2.key = q.2.effect := by
  have h := surviving_history hP hrun
  obtain ⟨st, hst, hdur⟩ := h.store
  obtain ⟨u, wal, hu, hs, -⟩ := hst.start hconf errnoCp' errnoWal'
  obtain ⟨-, hkvs⟩ := hdur.recovered hst hlast hs
  have hinc : (acceptedOps ls).Pairwise (fun p q => p.1 < q.1) := by
    have : (List.range' 2 (acceptedOps ls).length).Pairwise (· < ·) := List.pairwise_lt_range'
    rw [← h.ids] at this
    exact List.pairwise_map.mp this
  exact ⟨u, hu, hkvs, h.ids, fun p hp => find_of_mem hinc (by rw [hkvs, find_applyOps, List.map_map]; rfl) (h.acked p hp)⟩

end

/-- The machine goes down when a write is in the log and not yet in the map, and again while a checkpoint is being
taken. -/
def twoCrashes : List Fate :=
  (writeAll 0 (.put (some ⟨[97], [1]⟩)) ++ (writeAll 1 (.put (some ⟨[98], [2]⟩))).take 3).map .act ++
    .crash 0 0 tinyKv :: (writeAll 0 (.delete [97]) ++ checkAll.take 5).map .act

theorem acknowledged_writes_survive_twoCrashes :
    ∃ w ls u, crashHistory wireCodec tinyKv 0 0 twoCrashes = some (w, ls) ∧
      start wireCodec (construct tinyKv w.server.wal.dir w.server.cpDir) 0 0 = some (u, true) ∧
      u.kvs.find = (applyOps .empty ((acceptedOps ls).map Prod.snd)).find ∧
      acceptedOps ls = [(2, .put ⟨[97], [1]⟩), (3, .put ⟨[98], [2]⟩), (4, .delete [97])] ∧
      ackedOps ls = [(2, .put ⟨[97], [1]⟩), (4, .delete [97])] := by
  obtain ⟨⟨w, ls⟩, hrun⟩ := Option.isSome_iff_exists.mp
    (by decide +kernel : (crashHistory wireCodec tinyKv 0 0 twoCrashes).isSome = true)
  have hend : ∀ o ∈ crashHistory wireCodec tinyKv 0 0 twoCrashes, Sheltered o.1 (.restart 0 0 tinyKv) ∧
      acceptedOps o.2 = [(2, .put ⟨[97], [1]⟩), (3, .put ⟨[98], [2]⟩), (4, .delete [97])] ∧
      ackedOps o.2 = [(2, .put ⟨[97], [1]⟩), (4, .delete [97])] := by
    decide +kernel
  obtain ⟨hsh, hacc, hack⟩ := hend _ hrun
  obtain ⟨u, hu, hkvs, -⟩ := acknowledged_writes_survive tinyKv 0 0 (by decide +kernel) hrun 0 0 (by decide) hsh
  exact ⟨w, ls, u, hrun, hu, hkvs, hacc, hack⟩

end FlyingKV.MiniKv
