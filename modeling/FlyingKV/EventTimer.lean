import FlyingKV.EventRun
import FlyingKV.SearchTree

set_option autoImplicit false

/-!
# `Timer`

The timer's two tables: the multimap of subscribed events by time, and the map
from event ids to its elements. The multimap is a list in its order, its iterators
are the numbers of its nodes. The map is a tree, since the order of event ids is
none: `EventId::operator<` compares the times or the callbacks.
-/
namespace FlyingKV.EventTimer
open SearchTree

/-! ## `cctime` -/

structure CcTime where
  sec : ℤ
  nsec : ℤ
deriving DecidableEq, Repr

namespace CcTime

/-- `operator<`. -/
def before (a b : CcTime) : Bool := a.sec < b.sec || (a.sec == b.sec && a.nsec < b.nsec)

/-- A `long`, or nothing where the arithmetic overflows. -/
def long (x : ℤ) : Option ℤ := if -2 ^ 63 ≤ x ∧ x < 2 ^ 63 then some x else none

def getTotalNsecs (t : CcTime) : Option ℤ := do
  let ns ← long (t.sec * 1000000000)
  long (ns + t.nsec)

/-- `0 == when`. -/
def isZero (t : CcTime) : Option Bool := t.getTotalNsecs.map (· == 0)

instance : LinearOrder CcTime :=
  LinearOrder.lift' (fun t => toLex (t.sec, t.nsec)) fun a b h => by
    cases a
    cases b
    simpa using h

theorem before_iff (a b : CcTime) : a.before b = true ↔ a < b := by
  rw [show a < b ↔ toLex (a.sec, a.nsec) < toLex (b.sec, b.nsec) from Iff.rfl, Prod.Lex.toLex_lt_toLex]
  simp [before]

end CcTime

/-! ## The tables -/

structure EventId where
  when : CcTime
  how : ℕ
deriving DecidableEq, Repr

/-- `EventId::operator<`. -/
def EventId.less (a b : EventId) : Bool := a.when.before b.when || decide (a.how < b.how)

structure Event where
  ctx : ℕ
  callback : ℕ
deriving DecidableEq, Repr

/-- An element of `m_mapSubscribedEvents`. -/
structure Subscribed where
  node : ℕ
  when : CcTime
  ev : Event
deriving DecidableEq, Repr

abbrev EventsTable := BinTree (EventId × ℕ)

structure Timer where
  mapSubscribedEvents : List Subscribed
  mapEventsEntry : EventsTable
  nextNode : ℕ
deriving DecidableEq, Repr

def Timer.create : Timer := ⟨[], .nil, 0⟩

/-- Whether assertions are compiled in, and how the map balances its tree. -/
structure Platform where
  asserts : Bool
  balance : Balance (EventId × ℕ)

/-- The multimap from the first element with that time on. -/
def findPos (when : CcTime) : List Subscribed → List Subscribed
  | [] => []
  | n :: l => if n.when.before when then findPos when l else if when.before n.when then [] else n :: l

/-- `insert` of a multimap: after the elements with the same time. -/
def insertPos (n : Subscribed) (l : List Subscribed) : List Subscribed :=
  l.orderedInsert (fun a b => a.when.before b.when) n

/-- `erase` of a multimap's iterator. An iterator without its node is one of an element that
has been erased. -/
def eraseNode (i : ℕ) (l : List Subscribed) : Option (List Subscribed) :=
  if l.any (·.node == i) then some (l.eraseP (·.node == i)) else none

def subscribeEventAt (p : Platform) (t : Timer) (when : CcTime) (ev : Event) : Option (Timer × EventId) :=
  if p.asserts && ev.callback == 0 then none
  -- the walk does not stop at the end of the elements with that time
  else if (findPos when t.mapSubscribedEvents).any (·.ev.callback == ev.callback) then
    some (t, ⟨⟨0, 0⟩, ev.callback⟩)
  else
    some ({ mapSubscribedEvents := insertPos ⟨t.nextNode, when, ev⟩ t.mapSubscribedEvents
            mapEventsEntry :=
              insertUnique EventId.less p.balance ⟨when, ev.callback⟩ t.nextNode t.mapEventsEntry
            nextNode := t.nextNode + 1 }, ⟨when, ev.callback⟩)

def unsubscribeEvent (p : Platform) (t : Timer) (id : EventId) : Option (Timer × Bool) := do
  let zero ← id.when.isZero
  if zero || id.how == 0 then return (t, false)
  match find EventId.less id t.mapEventsEntry with
  | none => return (t, false)
  | some (i, entry) =>
    let subscribed ← eraseNode entry.2 t.mapSubscribedEvents
    return ({ t with mapSubscribedEvents := subscribed, mapEventsEntry := p.balance.erase i t.mapEventsEntry }, true)

def unsubscribeAllEvent (t : Timer) : Timer := { t with mapSubscribedEvents := [], mapEventsEntry := .nil }

/-- One round of the inner loop of `process`: the event that is fired, if the first one is due. -/
def fire (p : Platform) (t : Timer) (now : CcTime) : Option (Timer × Option EventId) :=
  match t.mapSubscribedEvents with
  | [] => some (t, none)
  | min :: rest =>
    if now.before min.when then some (t, none)
    else if min.ev.callback = 0 then none
    else
      some ({ t with mapSubscribedEvents := rest, mapEventsEntry :=
                eraseKey EventId.less p.balance ⟨min.when, min.ev.callback⟩ t.mapEventsEntry },
        some ⟨min.when, min.ev.callback⟩)

/-! ## Runs -/

inductive Call where
  | subscribeAt (when : CcTime) (ev : Event)
  | unsubscribe (id : EventId)
  | unsubscribeAll
  | fire (now : CcTime)
deriving DecidableEq, Repr

inductive Reply where
  | id (id : EventId)
  | removed (found : Bool)
  | fired (id : Option EventId)
  | done
deriving DecidableEq, Repr

/-- `live` has the ids that subscriptions have returned, those with time zero apart, and that have
neither fired nor been taken back since. -/
structure World where
  timer : Timer
  live : List EventId
deriving DecidableEq, Repr

def World.create : World := ⟨.create, []⟩

def step (p : Platform) (w : World) : Call → Option (World × Reply)
  | .subscribeAt when ev => do
    let (t, id) ← subscribeEventAt p w.timer when ev
    return (⟨t, if id.when.isZero = some true then w.live else id :: w.live⟩, .id id)
  | .unsubscribe id => do
    let (t, found) ← unsubscribeEvent p w.timer id
    return (⟨t, if found then w.live.erase id else w.live⟩, .removed found)
  | .unsubscribeAll => some (⟨unsubscribeAllEvent w.timer, []⟩, .done)
  | .fire now => do
    let (t, fired) ← fire p w.timer now
    return (⟨t, w.live.diff fired.toList⟩, .fired fired)

end FlyingKV.EventTimer
