import FlyingKV.EventTimer

set_option autoImplicit false

/-!
# The two tables of the timer

Event ids are ordered by both components. As long as the subscribed ids are a
chain of that order, the map finds and erases every id, and the two tables have
the same events.
-/
namespace FlyingKV.EventTimer
open EventRun SearchTree

/-- Neither the time nor the callback is greater. -/
instance : PartialOrder EventId :=
  PartialOrder.lift (fun id => (id.when, id.how)) fun a b h => by
    cases a
    cases b
    simpa using h

instance : DecidableLE EventId := fun a b => inferInstanceAs (Decidable (a.when ≤ b.when ∧ a.how ≤ b.how))

theorem EventId.less_iff (a b : EventId) : a.less b = true ↔ ¬ b ≤ a := by
  rw [show b ≤ a ↔ b.when ≤ a.when ∧ b.how ≤ a.how from Iff.rfl, EventId.less, Bool.or_eq_true,
    CcTime.before_iff, decide_eq_true_eq, not_and_or, not_le, not_le]

theorem agrees_less : Agrees EventId.less := by
  intro a b hab
  rw [EventId.less_iff, lt_iff_le_not_ge]
  exact ⟨fun h => ⟨hab.resolve_right h, h⟩, And.right⟩

/-! ## What is claimed of a step -/

def Subscribed.id (n : Subscribed) : EventId := ⟨n.when, n.ev.callback⟩

def Subscribed.entry (n : Subscribed) : EventId × ℕ := (n.id, n.node)

/-- The map has one entry for each element of the multimap, and they are the live events. -/
structure InStep (w : World) : Prop where
  entries : w.timer.mapEventsEntry.toList.Perm (w.timer.mapSubscribedEvents.map Subscribed.entry)
  nodes : (w.timer.mapSubscribedEvents.map Subscribed.node).Nodup
  live : w.live.Perm (w.timer.mapSubscribedEvents.map Subscribed.id)

/-- One event less, and no other change in either table. -/
def Removes (t u : Timer) (id : EventId) : Prop :=
  ∃ n, n.id = id ∧ t.mapSubscribedEvents.Perm (n :: u.mapSubscribedEvents) ∧
    t.mapEventsEntry.toList.Perm (n.entry :: u.mapEventsEntry.toList)

/-- A subscription fails exactly when the event is there; a live event can be taken back. -/
def Served (p : Platform) (w : World) : Call → Prop
  | .subscribeAt when ev => ∃ u id, step p w (.subscribeAt when ev) = some (u, .id id) ∧
      (id.when.isZero = some true ↔ ⟨when, ev.callback⟩ ∈ w.live)
  | .unsubscribe id => id ∈ w.live →
      ∃ u, step p w (.unsubscribe id) = some (u, .removed true) ∧ Removes w.timer u.timer id
  | _ => True

/-- A new event has a callback and a time that is not zero, is comparable with all live events,
and, where it shares its time with one, has a callback that no later event has. -/
def Fits (w : World) : Call → Prop
  | .subscribeAt when ev => ⟨when, ev.callback⟩ ∈ w.live ∨
      ev.callback ≠ 0 ∧ when.isZero = some false ∧
        (∀ id ∈ w.live, id ≤ ⟨when, ev.callback⟩ ∨ ⟨when, ev.callback⟩ ≤ id) ∧
        ((∃ id ∈ w.live, id.when = when) → ∀ id ∈ w.live, when < id.when → id.how ≠ ev.callback)
  | .unsubscribe id => id.when.getTotalNsecs ≠ none
  | _ => True

instance (w : World) : DecidablePred (Fits w)
  | .subscribeAt _ _ => inferInstanceAs (Decidable (_ ∨ _ ∧ _ ∧ _ ∧ _))
  | .unsubscribe _ => inferInstanceAs (Decidable (_ ≠ _))
  | .unsubscribeAll => inferInstanceAs (Decidable True)
  | .fire _ => inferInstanceAs (Decidable True)

/-! ## The multimap -/

def InOrder (l : List Subscribed) : Prop := l.Pairwise fun a b => a.when ≤ b.when

/-- The walk starts at an event of that time and ends at the end of the table. -/
theorem any_findPos {l : List Subscribed} (hl : InOrder l) (when : CcTime) (cb : ℕ) :
    (findPos when l).any (·.ev.callback == cb) = true ↔
      (∃ n ∈ l, n.when = when) ∧ ∃ n ∈ l, when ≤ n.when ∧ n.ev.callback = cb := by
  induction l with
  | nil => simp [findPos]
  | cons n l ih =>
    obtain ⟨hn, hl⟩ := List.pairwise_cons.mp hl
    simp only [findPos, CcTime.before_iff]
    rcases lt_trichotomy n.when when with hlt | heq | hgt
    · rw [if_pos hlt, ih hl]
      simp [hlt.ne, hlt.not_ge]
    · have hall : ∀ m ∈ n :: l, when ≤ m.when :=
        List.forall_mem_cons.mpr ⟨heq.ge, fun m hm => heq ▸ hn m hm⟩
      rw [if_neg heq.not_lt, if_neg heq.not_gt, List.any_eq_true]
      constructor
      · rintro ⟨m, hm, hcb⟩
        exact ⟨⟨n, List.mem_cons_self, heq⟩, m, hm, hall m hm, beq_iff_eq.mp hcb⟩
      · rintro ⟨-, m, hm, -, hcb⟩
        exact ⟨m, hm, beq_iff_eq.mpr hcb⟩
    · rw [if_neg hgt.not_gt, if_pos hgt]
      constructor
      · intro h
        cases h
      · rintro ⟨⟨m, hm, rfl⟩, -⟩
        rcases List.mem_cons.mp hm with rfl | hm
        · exact absurd hgt (lt_irrefl _)
        · exact absurd (hn m hm) hgt.not_ge

theorem InOrder.insertPos {l : List Subscribed} (hl : InOrder l) (n : Subscribed) : InOrder (insertPos n l) := by
  induction l with
  | nil => exact List.pairwise_singleton _ _
  | cons m l ih =>
    have hm := (List.pairwise_cons.mp hl).1
    unfold EventTimer.insertPos at ih ⊢
    rw [List.orderedInsert]
    split_ifs with hlt <;> rw [CcTime.before_iff] at hlt
    · refine List.pairwise_cons.mpr ⟨List.forall_mem_cons.mpr ⟨hlt.le, fun k hk => ?_⟩, hl⟩
      exact hlt.le.trans (hm k hk)
    · refine List.pairwise_cons.mpr ⟨fun k hk => ?_, ih (List.pairwise_cons.mp hl).2⟩
      rcases (List.mem_orderedInsert _).mp hk with rfl | hk
      · exact not_lt.mp hlt
      · exact hm k hk

theorem eraseNode_of_mem {l : List Subscribed} (hl : (l.map Subscribed.node).Nodup) {n : Subscribed} (hn : n ∈ l) :
    ∃ l', eraseNode n.node l = some l' ∧ l.Perm (n :: l') ∧ l'.Sublist l := by
  have hany : l.any (·.node == n.node) = true := List.any_eq_true.mpr ⟨n, hn, beq_self_eq_true _⟩
  obtain ⟨m, xs, ys, -, hm, hsplit, herase⟩ :=
    List.exists_of_eraseP (p := (·.node == n.node)) hn (beq_self_eq_true n.node)
  have hml : m ∈ l := hsplit ▸ by simp
  obtain rfl : m = n := List.inj_on_of_nodup_map hl hml hn (beq_iff_eq.mp hm)
  refine ⟨l.eraseP (·.node == m.node), if_pos hany, ?_, List.eraseP_sublist⟩
  rw [herase]
  exact hsplit ▸ List.perm_middle

/-! ## The invariant -/

structure Inv (w : World) : Prop extends InStep w where
  ordered : InOrder w.timer.mapSubscribedEvents
  fresh : ∀ n ∈ w.timer.mapSubscribedEvents, n.node < w.timer.nextNode
  ascending : Ascending w.timer.mapEventsEntry
  valid : ∀ n ∈ w.timer.mapSubscribedEvents, n.ev.callback ≠ 0 ∧ n.when.isZero = some false

section Step
variable {p : Platform} {w : World}

theorem inv_create : Inv World.create where
  entries := .nil
  nodes := List.nodup_nil
  live := .nil
  ordered := .nil
  fresh := by simp [World.create, Timer.create]
  ascending := .nil
  valid := by simp [World.create, Timer.create]

theorem InStep.mem_live (h : InStep w) {id : EventId} :
    id ∈ w.live ↔ ∃ n ∈ w.timer.mapSubscribedEvents, n.id = id :=
  h.live.mem_iff.trans List.mem_map

theorem InStep.mem_entries (h : InStep w) {x : EventId × ℕ} :
    x ∈ w.timer.mapEventsEntry.toList ↔ ∃ n ∈ w.timer.mapSubscribedEvents, n.entry = x :=
  h.entries.mem_iff.trans List.mem_map

theorem Inv.remove (h : Inv w) {n : Subscribed} {l : List Subscribed} {table : EventsTable}
    (hl : w.timer.mapSubscribedEvents.Perm (n :: l)) (hsub : l.Sublist w.timer.mapSubscribedEvents)
    (htable : w.timer.mapEventsEntry.toList.Perm (n.entry :: table.toList)) (hasc : Ascending table) :
    Inv ⟨{ w.timer with mapSubscribedEvents := l, mapEventsEntry := table }, w.live.erase n.id⟩ where
  entries := (htable.symm.trans (h.entries.trans (hl.map _))).cons_inv
  nodes := h.nodes.sublist (hsub.map _)
  live := by
    have hn : n.id ∈ w.live := h.mem_live.mpr ⟨n, hl.mem_iff.mpr List.mem_cons_self, rfl⟩
    exact ((List.perm_cons_erase hn).symm.trans (h.live.trans (hl.map _))).cons_inv
  ordered := List.Pairwise.sublist hsub h.ordered
  fresh m hm := h.fresh m (hsub.subset hm)
  ascending := hasc
  valid m hm := h.valid m (hsub.subset hm)

/-! ## `SubscribeEventAt` -/

theorem isZero_zero : (⟨0, 0⟩ : CcTime).isZero = some true := by decide

theorem Inv.any_of_mem (h : Inv w) {when : CcTime} {cb : ℕ} (hmem : ⟨when, cb⟩ ∈ w.live) :
    (findPos when w.timer.mapSubscribedEvents).any (·.ev.callback == cb) = true := by
  obtain ⟨n, hn, hid⟩ := h.mem_live.mp hmem
  obtain ⟨hwhen, hcb⟩ := EventId.mk.inj hid
  exact (any_findPos h.ordered when cb).mpr ⟨⟨n, hn, hwhen⟩, n, hn, hwhen.ge, hcb⟩

theorem Inv.any_of_new (h : Inv w) {when : CcTime} {cb : ℕ} (hnew : ⟨when, cb⟩ ∉ w.live)
    (hlater : (∃ id ∈ w.live, id.when = when) → ∀ id ∈ w.live, when < id.when → id.how ≠ cb) :
    (findPos when w.timer.mapSubscribedEvents).any (·.ev.callback == cb) = false := by
  refine Bool.eq_false_iff.mpr fun hany => ?_
  obtain ⟨⟨n, hn, hwhen⟩, m, hm, hle, hcb⟩ := (any_findPos h.ordered when cb).mp hany
  have hmlive : m.id ∈ w.live := h.mem_live.mpr ⟨m, hm, rfl⟩
  rcases hle.lt_or_eq with hlt | rfl
  · exact hlater ⟨n.id, h.mem_live.mpr ⟨n, hn, rfl⟩, hwhen⟩ m.id hmlive hlt hcb
  · exact hnew (hcb ▸ hmlive)

theorem Inv.subscribe_of_mem (h : Inv w) {when : CcTime} {ev : Event} (hmem : ⟨when, ev.callback⟩ ∈ w.live) :
    step p w (.subscribeAt when ev) = some (w, .id ⟨⟨0, 0⟩, ev.callback⟩) := by
  obtain ⟨n, hn, hid⟩ := h.mem_live.mp hmem
  have hcb : (ev.callback == 0) = false := by
    rw [← (EventId.mk.inj hid).2]
    exact beq_eq_false_iff_ne.mpr (h.valid n hn).1
  simp only [step, subscribeEventAt, hcb, Bool.and_false, Bool.false_eq_true, if_false, h.any_of_mem hmem, if_true,
    Option.bind_eq_bind, Option.bind_some, isZero_zero, Option.pure_def]

theorem Inv.add (h : Inv w) {when : CcTime} {ev : Event} (hcb : ev.callback ≠ 0) (hzero : when.isZero = some false)
    (hnew : ⟨when, ev.callback⟩ ∉ w.live)
    (hchain : ∀ id ∈ w.live, id ≤ ⟨when, ev.callback⟩ ∨ ⟨when, ev.callback⟩ ≤ id) :
    Inv ⟨{ mapSubscribedEvents := insertPos ⟨w.timer.nextNode, when, ev⟩ w.timer.mapSubscribedEvents
           mapEventsEntry :=
            insertUnique EventId.less p.balance ⟨when, ev.callback⟩ w.timer.nextNode w.timer.mapEventsEntry
           nextNode := w.timer.nextNode + 1 }, ⟨when, ev.callback⟩ :: w.live⟩ := by
  have hperm : (insertPos ⟨w.timer.nextNode, when, ev⟩ w.timer.mapSubscribedEvents).Perm _ :=
    List.perm_orderedInsert _ _ _
  have hplace : ∀ x ∈ w.timer.mapEventsEntry.toList, x.1 < ⟨when, ev.callback⟩ ∨ ⟨when, ev.callback⟩ < x.1 := by
    intro x hx
    obtain ⟨n, hn, rfl⟩ := h.mem_entries.mp hx
    have hlive : n.id ∈ w.live := h.mem_live.mpr ⟨n, hn, rfl⟩
    have hne : n.id ≠ ⟨when, ev.callback⟩ := fun heq => hnew (heq ▸ hlive)
    exact (hchain n.id hlive).imp (fun hle => lt_of_le_of_ne hle hne) fun hle => lt_of_le_of_ne hle hne.symm
  obtain ⟨hasc, htable⟩ := h.ascending.insertUnique agrees_less p.balance w.timer.nextNode hplace
  exact
    { entries := htable.trans ((h.entries.cons _).trans (hperm.map Subscribed.entry).symm)
      nodes := by
        refine (hperm.map Subscribed.node).nodup_iff.mpr (List.nodup_cons.mpr ⟨fun hmem => ?_, h.nodes⟩)
        obtain ⟨n, hn, heq⟩ := List.mem_map.mp hmem
        exact (h.fresh n hn).ne heq
      live := (h.live.cons _).trans (hperm.map Subscribed.id).symm
      ordered := h.ordered.insertPos _
      fresh := fun n hn => by
        rcases List.mem_cons.mp (hperm.mem_iff.mp hn) with rfl | hn
        · exact Nat.lt_succ_self _
        · exact (h.fresh n hn).trans (Nat.lt_succ_self _)
      ascending := hasc
      valid := fun n hn => by
        rcases List.mem_cons.mp (hperm.mem_iff.mp hn) with rfl | hn
        · exact ⟨hcb, hzero⟩
        · exact h.valid n hn }

theorem Inv.subscribe (h : Inv w) {when : CcTime} {ev : Event} (hfit : Fits w (.subscribeAt when ev)) :
    ∃ u id, step p w (.subscribeAt when ev) = some (u, .id id) ∧ Inv u ∧
      (id.when.isZero = some true ↔ ⟨when, ev.callback⟩ ∈ w.live) := by
  by_cases hmem : ⟨when, ev.callback⟩ ∈ w.live
  · exact ⟨w, _, h.subscribe_of_mem hmem, h, iff_of_true isZero_zero hmem⟩
  · obtain ⟨hcb, hzero, hchain, hlater⟩ := hfit.resolve_left hmem
    refine ⟨_, ⟨when, ev.callback⟩, ?_, h.add (p := p) hcb hzero hmem hchain, iff_of_false (by simp [hzero]) hmem⟩
    simp [step, subscribeEventAt, hcb, h.any_of_new hmem hlater, hzero]

/-! ## `UnsubscribeEvent` and `process` -/

theorem Inv.find_live (h : Inv w) {n : Subscribed} (hn : n ∈ w.timer.mapSubscribedEvents) :
    ∃ i, find EventId.less n.id w.timer.mapEventsEntry = some (i, n.entry) :=
  h.ascending.find_of_mem (x := n.entry) agrees_less (h.mem_entries.mpr ⟨n, hn, rfl⟩)

theorem Inv.find_eq (h : Inv w) {id : EventId} {i : ℕ} {x : EventId × ℕ}
    (hfind : find EventId.less id w.timer.mapEventsEntry = some (i, x)) :
    w.timer.mapEventsEntry.toList[i]? = some x ∧ ∃ n ∈ w.timer.mapSubscribedEvents, n.entry = x ∧ n.id = id := by
  obtain ⟨hget, hless, hgreater⟩ := find_eq_some hfind
  obtain ⟨n, hn, rfl⟩ := h.mem_entries.mp (List.mem_of_getElem? hget)
  have hle : id ≤ n.id := not_not.mp fun hnot => Bool.eq_false_iff.mp hless ((EventId.less_iff _ _).mpr hnot)
  have hge : n.id ≤ id := not_not.mp fun hnot => Bool.eq_false_iff.mp hgreater ((EventId.less_iff _ _).mpr hnot)
  exact ⟨hget, n, hn, rfl, le_antisymm hge hle⟩

theorem Inv.unsubscribe_of_mem (h : Inv w) {id : EventId} (hid : id ∈ w.live) :
    ∃ u, step p w (.unsubscribe id) = some (u, .removed true) ∧ Inv u ∧ Removes w.timer u.timer id := by
  obtain ⟨n, hn, rfl⟩ := h.mem_live.mp hid
  obtain ⟨hcb, hzero⟩ := h.valid n hn
  obtain ⟨i, hfind⟩ := h.find_live hn
  obtain ⟨hget, -⟩ := h.find_eq hfind
  obtain ⟨hasc, htable⟩ := h.ascending.erase p.balance hget
  obtain ⟨l, herase, hperm, hsub⟩ := eraseNode_of_mem h.nodes hn
  refine ⟨_, ?_, h.remove hperm hsub htable hasc, n, rfl, hperm, htable⟩
  have hzero' : n.id.when.isZero = some false := hzero
  have hcb' : (n.id.how == 0) = false := beq_eq_false_iff_ne.mpr hcb
  have herase' : eraseNode n.entry.2 w.timer.mapSubscribedEvents = some l := herase
  simp only [step, unsubscribeEvent, hzero', hcb', hfind, herase', Option.bind_eq_bind, Option.bind_some, Bool.or_self,
    Bool.false_eq_true, if_false, if_true, Option.pure_def]

theorem Inv.unsubscribe_of_not_mem (h : Inv w) {id : EventId} (hid : id ∉ w.live)
    (hfit : Fits w (.unsubscribe id)) : step p w (.unsubscribe id) = some (w, .removed false) := by
  obtain ⟨ns, hns⟩ := Option.ne_none_iff_exists'.mp hfit
  have hfind : find EventId.less id w.timer.mapEventsEntry = none := by
    refine Option.eq_none_iff_forall_not_mem.mpr fun ⟨i, x⟩ hx => ?_
    obtain ⟨-, n, hn, -, hnid⟩ := h.find_eq hx
    exact hid (h.mem_live.mpr ⟨n, hn, hnid⟩)
  simp only [step, unsubscribeEvent, CcTime.isZero, hns, Option.map_some, hfind, Option.bind_eq_bind, Option.bind_some,
    Option.pure_def]
  split_ifs <;> rfl

theorem Inv.fire (h : Inv w) (now : CcTime) : ∃ u r, step p w (.fire now) = some (u, r) ∧ Inv u := by
  cases hl : w.timer.mapSubscribedEvents with
  | nil =>
    refine ⟨w, .fired none, ?_, h⟩
    simp [step, EventTimer.fire, hl]
  | cons min rest =>
    have hmin : min ∈ w.timer.mapSubscribedEvents := by simp [hl]
    by_cases hdue : now.before min.when = true
    · refine ⟨w, .fired none, ?_, h⟩
      simp [step, EventTimer.fire, hl, hdue]
    · obtain ⟨hasc, htable⟩ :=
        h.ascending.eraseKey (x := min.entry) agrees_less p.balance (h.mem_entries.mpr ⟨min, hmin, rfl⟩)
      refine ⟨_, .fired (some min.id), ?_, h.remove (hl ▸ .refl _) (hl ▸ List.sublist_cons_self _ _) htable hasc⟩
      simp [step, EventTimer.fire, hl, hdue, (h.valid min hmin).1, Subscribed.id, Subscribed.entry]

theorem Inv.unsubscribeAll (w : World) : Inv ⟨unsubscribeAllEvent w.timer, []⟩ where
  entries := .nil
  nodes := List.nodup_nil
  live := .nil
  ordered := .nil
  fresh := by simp [unsubscribeAllEvent]
  ascending := .nil
  valid := by simp [unsubscribeAllEvent]

theorem Inv.step (h : Inv w) {c : Call} (hfit : Fits w c) :
    ∃ u r, EventTimer.step p w c = some (u, r) ∧ Inv u := by
  cases c with
  | subscribeAt when ev =>
    obtain ⟨u, id, hs, hu, -⟩ := h.subscribe (p := p) hfit
    exact ⟨u, _, hs, hu⟩
  | unsubscribe id =>
    by_cases hid : id ∈ w.live
    · obtain ⟨u, hs, hu, -⟩ := h.unsubscribe_of_mem (p := p) hid
      exact ⟨u, _, hs, hu⟩
    · exact ⟨w, _, h.unsubscribe_of_not_mem hid hfit, h⟩
  | unsubscribeAll => exact ⟨_, _, rfl, Inv.unsubscribeAll w⟩
  | fire now => exact h.fire now

theorem Inv.served (h : Inv w) {c : Call} (hfit : Fits w c) : Served p w c := by
  cases c with
  | subscribeAt when ev =>
    obtain ⟨u, id, hs, -, hiff⟩ := h.subscribe (p := p) hfit
    exact ⟨u, id, hs, hiff⟩
  | unsubscribe id =>
    intro hid
    obtain ⟨u, hs, -, hremoves⟩ := h.unsubscribe_of_mem (p := p) hid
    exact ⟨u, hs, hremoves⟩
  | unsubscribeAll => trivial
  | fire now => trivial

end Step

theorem tables_in_step (p : Platform) {calls : List Call} (h : Along (step p) Fits World.create calls) :
    Along (step p) (fun w c => InStep w ∧ Served p w c) World.create calls ∧
      ∃ w replies, run (step p) World.create calls = some (w, replies) ∧ InStep w := by
  have hkeeps : ∀ w c o, Inv w → Fits w c → True → o ∈ step p w c → Inv o.1 := by
    intro w c o hw hfit _ ho
    obtain ⟨u, r, hs, hu⟩ := hw.step (p := p) hfit
    obtain rfl : o = (u, r) := Option.some.inj (ho.symm.trans hs)
    exact hu
  constructor
  · have hserved : ∀ w c, Inv w → Fits w c → (True ↔ InStep w ∧ Served p w c) := fun w c hw hfit =>
      iff_of_true trivial ⟨hw.toInStep, hw.served hfit⟩
    exact (along_congr hserved hkeeps inv_create h).mp (along_of_forall (fun _ _ _ => trivial) _)
  · obtain ⟨w, replies, hrun, hw⟩ := run_along (I := fun w _ => Inv w)
      (fun w _ c hw hfit => hw.step (p := p) hfit) [] inv_create h
    exact ⟨w, replies, hrun, hw.toInStep⟩

/-- Two callbacks at one time, a duplicate, one event taken back and one fired. -/
theorem tables_in_step_sample :
    Along (step ⟨true, .unrotated _⟩) (fun w c => InStep w ∧ Served ⟨true, .unrotated _⟩ w c) World.create
      [.subscribeAt ⟨1, 0⟩ ⟨0, 16⟩, .subscribeAt ⟨1, 0⟩ ⟨0, 32⟩, .subscribeAt ⟨2, 5⟩ ⟨0, 48⟩,
        .subscribeAt ⟨1, 0⟩ ⟨7, 32⟩, .unsubscribe ⟨⟨1, 0⟩, 32⟩, .fire ⟨1, 0⟩, .unsubscribe ⟨⟨1, 0⟩, 16⟩] :=
  (tables_in_step ⟨true, .unrotated _⟩ (by decide)).1

/-- Ids that the order does not compare, and a walk that runs into a later time. -/
theorem tables_out_of_step :
    (∃ w u replies, run (step ⟨true, .unrotated _⟩) World.create
        [.subscribeAt ⟨2, 0⟩ ⟨0, 16⟩, .subscribeAt ⟨1, 0⟩ ⟨0, 32⟩] = some (w, replies) ∧
      ⟨⟨1, 0⟩, 32⟩ ∈ w.live ∧
      step ⟨true, .unrotated _⟩ w (.unsubscribe ⟨⟨1, 0⟩, 32⟩) = some (u, .removed false)) ∧
    ∃ w replies, run (step ⟨true, .unrotated _⟩) World.create
        [.subscribeAt ⟨1, 0⟩ ⟨0, 16⟩, .subscribeAt ⟨2, 0⟩ ⟨0, 32⟩] = some (w, replies) ∧
      ⟨⟨1, 0⟩, 32⟩ ∉ w.live ∧
      step ⟨true, .unrotated _⟩ w (.subscribeAt ⟨1, 0⟩ ⟨0, 32⟩) = some (w, .id ⟨⟨0, 0⟩, 32⟩) := by
  refine ⟨⟨_, _, _, rfl, ?_, rfl⟩, _, _, rfl, ?_, rfl⟩ <;> decide

end FlyingKV.EventTimer
