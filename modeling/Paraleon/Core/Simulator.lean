import Mathlib.Algebra.Order.Ring.Rat
import Paraleon.Core.Schedulers

/-!
# The simulator

`src/src/core/model/default-simulator-impl.cc`, with any of the schedulers, and the `EventImpl`
objects of `event-impl.cc`. What the program asks of the simulator, from its events, from
outside `Run` and from other threads, are the steps of a machine. Beside the fields of the
class the state has the flags of the `EventImpl` objects, and what happened so far: the events
scheduled, those that were taken from the list, those whose `Notify` was called, those that
were removed, and the ids that were returned.
-/

namespace Paraleon.Core

open PriorityQueue

structure EventId where
  m_eventImpl : ℕ
  m_ts : ℕ
  m_context : ℕ
  m_uid : ℕ
  deriving DecidableEq, Repr

/-- What another thread has scheduled. The time is relative. -/
structure EventWithContext where
  context : ℕ
  timestamp : ℕ
  event : ℕ
  deriving DecidableEq, Repr

structure DefaultSimulatorImpl (σ : Type*) where
  m_eventsWithContext : List EventWithContext
  m_eventsWithContextEmpty : Bool
  m_destroyEvents : List EventId
  m_stop : Bool
  m_events : σ
  m_uid : ℕ
  m_currentUid : ℕ
  m_currentTs : ℕ
  m_currentContext : ℕ
  m_unscheduledEvents : ℤ
  /-- `m_cancel` of each `EventImpl` made so far -/
  m_cancel : List Bool
  scheduled : List Event
  handled : List Event
  notified : List Event
  removed : List Event
  ids : List EventId

namespace DefaultSimulatorImpl

variable {σ : Type*} (ops : Ops σ Event)

/-- The uids below 4 are not those of events in the list: 0 is invalid, 1 is "now" and 2 is
"destroy". -/
def create (m_events : σ) : DefaultSimulatorImpl σ where
  m_eventsWithContext := []
  m_eventsWithContextEmpty := true
  m_destroyEvents := []
  m_stop := false
  m_events := m_events
  m_uid := 4
  m_currentUid := 0
  m_currentTs := 0
  m_currentContext := 0xffffffff
  m_unscheduledEvents := 0
  m_cancel := []
  scheduled := []
  handled := []
  notified := []
  removed := []
  ids := []

/-- `m_events->IsEmpty ()` -/
def isEmpty (s : DefaultSimulatorImpl σ) : Bool := (ops.next s.m_events).isNone

/-- A time as `uint64_t` -/
def toUnsigned (t : ℤ) : ℕ := (t % 2 ^ 64).toNat

/-- `time + TimeStep (m_currentTs)`, which has 64 signed bits -/
def absolute (s : DefaultSimulatorImpl σ) (time : ℤ) : Option ℤ :=
  let t := time + s.m_currentTs
  if t < 2 ^ 63 then some t else none

/-- `EventImpl::IsCancelled` -/
def isCancelled (s : DefaultSimulatorImpl σ) (impl : ℕ) : Bool := s.m_cancel.getD impl true

/-- `EventImpl::Cancel` -/
def cancelImpl (s : DefaultSimulatorImpl σ) (impl : ℕ) : DefaultSimulatorImpl σ :=
  { s with m_cancel := s.m_cancel.set impl true }

/-- The `EventImpl` of the next event -/
def newImpl (s : DefaultSimulatorImpl σ) : ℕ := s.m_cancel.length

def makeEvent (s : DefaultSimulatorImpl σ) : DefaultSimulatorImpl σ :=
  { s with m_cancel := s.m_cancel ++ [false] }

/-- The event that the next `Insert` puts into the list -/
def newEvent (s : DefaultSimulatorImpl σ) (impl ts context : ℕ) : Event :=
  ⟨impl, ts, s.m_uid, context⟩

/-- What all functions that schedule an event do at their end -/
def insertEvent (s : DefaultSimulatorImpl σ) (impl ts context : ℕ) :
    Option (DefaultSimulatorImpl σ) :=
  (ops.insert s.m_events (s.newEvent impl ts context)).map fun m_events =>
    { s with
      m_events
      m_uid := (s.m_uid + 1) % 2 ^ 32
      m_unscheduledEvents := s.m_unscheduledEvents + 1
      scheduled := s.scheduled ++ [s.newEvent impl ts context] }

/-- `return EventId (event, ev.key.m_ts, ev.key.m_context, ev.key.m_uid)` -/
def returnId (s : DefaultSimulatorImpl σ) (ev : Event) : DefaultSimulatorImpl σ :=
  { s with ids := s.ids ++ [⟨ev.impl, ev.key.m_ts, ev.key.m_context, ev.key.m_uid⟩] }

/-- `Schedule` asserts that the time is not in the past. -/
def schedule (s : DefaultSimulatorImpl σ) (time : ℤ) : Option (DefaultSimulatorImpl σ) :=
  (s.absolute time).bind fun tAbsolute =>
    if 0 ≤ tAbsolute ∧ (s.m_currentTs : ℤ) ≤ tAbsolute then
      (insertEvent ops s.makeEvent s.newImpl (toUnsigned tAbsolute) s.m_currentContext).map
        fun t => t.returnId (s.newEvent s.newImpl (toUnsigned tAbsolute) s.m_currentContext)
    else none

/-- `ScheduleWithContext` on the main thread -/
def scheduleWithContext (s : DefaultSimulatorImpl σ) (context : ℕ) (time : ℤ) :
    Option (DefaultSimulatorImpl σ) :=
  (s.absolute time).bind fun tAbsolute =>
    insertEvent ops s.makeEvent s.newImpl (toUnsigned tAbsolute) context

/-- `ScheduleWithContext` on another thread -/
def postWithContext (s : DefaultSimulatorImpl σ) (context : ℕ) (time : ℤ) :
    DefaultSimulatorImpl σ :=
  { s.makeEvent with
    m_eventsWithContext := s.m_eventsWithContext ++ [⟨context, toUnsigned time, s.newImpl⟩]
    m_eventsWithContextEmpty := false }

def scheduleNow (s : DefaultSimulatorImpl σ) : Option (DefaultSimulatorImpl σ) :=
  (insertEvent ops s.makeEvent s.newImpl s.m_currentTs s.m_currentContext).map
    fun t => t.returnId (s.newEvent s.newImpl s.m_currentTs s.m_currentContext)

/-- The id of a "destroy" event has the uid 2, but a uid is counted. -/
def scheduleDestroy (s : DefaultSimulatorImpl σ) : DefaultSimulatorImpl σ :=
  let id := ⟨s.newImpl, s.m_currentTs, 0xffffffff, 2⟩
  { s.makeEvent with
    m_destroyEvents := s.m_destroyEvents ++ [id]
    m_uid := (s.m_uid + 1) % 2 ^ 32
    ids := s.ids ++ [id] }

/-- One turn of the loop of `ProcessEventsWithContext` -/
def insertPosted (s : DefaultSimulatorImpl σ) (event : EventWithContext) :
    Option (DefaultSimulatorImpl σ) :=
  insertEvent ops s event.event ((s.m_currentTs + event.timestamp) % 2 ^ 64) event.context

/-- `ProcessEventsWithContext` swaps the lists before its loop. -/
def processEventsWithContext (s : DefaultSimulatorImpl σ) : Option (DefaultSimulatorImpl σ) :=
  if s.m_eventsWithContextEmpty then some s
  else
    s.m_eventsWithContext.foldlM (insertPosted ops)
      { s with m_eventsWithContext := [], m_eventsWithContextEmpty := true }

/-- `EventImpl::Invoke` of the event in hand: `Notify` is called unless it was cancelled. -/
def invoke (s : DefaultSimulatorImpl σ) (ev : Event) : DefaultSimulatorImpl σ :=
  if s.isCancelled ev.impl then s else { s with notified := s.notified ++ [ev] }

/-- `ProcessOneEvent` up to the call of `Invoke`. What the event then asks for are steps of
their own, and so is the call of `ProcessEventsWithContext` at the end. -/
def processOneEvent (s : DefaultSimulatorImpl σ) : Option (DefaultSimulatorImpl σ) :=
  (ops.next s.m_events).bind fun (next, m_events) =>
    if s.m_currentTs ≤ next.key.m_ts then
      some ({ s with
        m_events
        m_unscheduledEvents := s.m_unscheduledEvents - 1
        m_currentTs := next.key.m_ts
        m_currentContext := next.key.m_context
        m_currentUid := next.key.m_uid
        handled := s.handled ++ [next] }.invoke next)
    else none

def isExpired (s : DefaultSimulatorImpl σ) (ev : EventId) : Bool :=
  if ev.m_uid = 2 then
    if s.isCancelled ev.m_eventImpl then true else !s.m_destroyEvents.contains ev
  else
    ev.m_ts < s.m_currentTs || (ev.m_ts = s.m_currentTs && ev.m_uid ≤ s.m_currentUid) ||
      s.isCancelled ev.m_eventImpl

def getDelayLeft (s : DefaultSimulatorImpl σ) (id : EventId) : ℕ :=
  if s.isExpired id then 0 else id.m_ts - s.m_currentTs

def cancel (s : DefaultSimulatorImpl σ) (id : EventId) : DefaultSimulatorImpl σ :=
  if s.isExpired id then s else s.cancelImpl id.m_eventImpl

/-- The event of an id -/
def EventId.event (id : EventId) : Event := ⟨id.m_eventImpl, id.m_ts, id.m_uid, id.m_context⟩

def remove (s : DefaultSimulatorImpl σ) (id : EventId) : Option (DefaultSimulatorImpl σ) :=
  if id.m_uid = 2 then some { s with m_destroyEvents := s.m_destroyEvents.erase id }
  else if s.isExpired id then some s
  else
    (ops.remove s.m_events (EventId.event id)).map fun m_events =>
      { s.cancelImpl id.m_eventImpl with
        m_events
        m_unscheduledEvents := s.m_unscheduledEvents - 1
        removed := s.removed ++ [EventId.event id] }

/-- `Run` before its loop -/
def enterRun (s : DefaultSimulatorImpl σ) : Option (DefaultSimulatorImpl σ) :=
  (processEventsWithContext ops s).map fun t => { t with m_stop := false }

/-- A turn of the loop of `Run`, up to the call of `Invoke` -/
def turn (s : DefaultSimulatorImpl σ) : Option (DefaultSimulatorImpl σ) :=
  if !isEmpty ops s && !s.m_stop then processOneEvent ops s else none

/-- `Run` after its loop, with the test that no event was lost -/
def leaveRun (s : DefaultSimulatorImpl σ) : Option (DefaultSimulatorImpl σ) :=
  if isEmpty ops s || s.m_stop then
    if !isEmpty ops s || s.m_unscheduledEvents = 0 then some s else none
  else none

/-- What the program asks of the simulator -/
inductive Call
  | schedule (time : ℤ)
  | scheduleWithContext (context : ℕ) (time : ℤ)
  | postWithContext (context : ℕ) (time : ℤ)
  | scheduleNow
  | scheduleDestroy
  | cancel (id : EventId)
  | remove (id : EventId)
  | stop
  | enterRun
  | turn
  | processEventsWithContext
  | leaveRun
  deriving DecidableEq

/-- One call. `none` is a failed assertion, or a call that `Run` does not make. -/
def step (s : DefaultSimulatorImpl σ) : Call → Option (DefaultSimulatorImpl σ)
  | .schedule time => schedule ops s time
  | .scheduleWithContext context time => scheduleWithContext ops s context time
  | .postWithContext context time => some (s.postWithContext context time)
  | .scheduleNow => scheduleNow ops s
  | .scheduleDestroy => some s.scheduleDestroy
  | .cancel id => some (s.cancel id)
  | .remove id => remove ops s id
  | .stop => some { s with m_stop := true }
  | .enterRun => enterRun ops s
  | .turn => turn ops s
  | .processEventsWithContext => processEventsWithContext ops s
  | .leaveRun => leaveRun ops s

end DefaultSimulatorImpl

end Paraleon.Core
