import Mathlib.Data.List.Nodup
import Mathlib.Data.Rat.Floor
import UtilityFramework.Lib.Transition

/-!
# The timers of a context

A timer of `utils::simple_context` has an interval, in milliseconds, and clients; `m_timers`
holds the timers with a time stamp each, the time of their creation or the deadline at which they
were last due. A client that is to be invoked a given number of times gets a timer of its own;
one that is invoked indefinitely joins the first timer with the same interval, if that has
clients, and gets the time stamp that is already there.

At the beginning of an iteration the worker finds the timers that are due first and waits for
their deadline, with the mutex released. If the wait ends at the deadline, the timers that are
still registered get the deadline as their time stamp, and their clients are invoked, again with
the mutex released. Registrations and unregistrations may come at any time between the steps.

Times are exact, in nanoseconds. What the source converts to integers is converted as there: the
time since the stamp is cut to whole nanoseconds, and so is the time that is left, which then
goes through `unsigned long long` and the signed representation of `std::chrono::nanoseconds`.
Timers and clients are numbered in the order of their creation; the time of registration and the
interval of a client, and the log of invocations, are recorded for the statements.
-/

namespace UtilityFramework

open Transition

/-! ### Timers -/

/-- `client_wrapper`, with the time and the interval of its registration. -/
structure TimerClient where
  id : ℕ
  invocationCount : ℕ
  expired : Bool
  registered : ℚ
  interval : ℚ

/-- `timer`. -/
structure Timer where
  interval : ℚ
  clients : List ℕ

/-- Where the worker is: between iterations, waiting with the timers that are due first, or
invoking clients, each with its timer, and after them the clients of further timers. -/
inductive TimerWorker
  | idle
  | waiting (pending : List ℕ)
  | invoking (executing : List (ℕ × ℕ)) (pending : List ℕ)

/-- An invocation of a client, with the deadline of the iteration and the time. -/
structure TimerInvocation where
  client : ℕ
  deadline : ℚ
  time : ℚ

/-- The timers of a context. `deadline` is the local variable of the worker, which keeps its value
from one iteration to the next. -/
structure ContextTimers where
  clock : ℚ
  nextId : ℕ
  clients : ℕ → TimerClient
  clientsMade : ℕ
  timers : ℕ → Timer
  timersMade : ℕ
  mTimers : List (ℚ × ℕ)
  deadline : ℚ
  worker : TimerWorker
  log : List TimerInvocation

/-- The nanoseconds of an interval in milliseconds. -/
def nanoseconds (interval : ℚ) : ℚ := interval * 1000000

/-- The integer that `std::chrono::duration_cast` and `static_cast` cut a number to. -/
def truncate (q : ℚ) : ℤ := q.num.tdiv q.den

/-- The conversion of an `unsigned long long` to the representation of a duration. -/
def toInt64 (n : ℕ) : ℤ := if n < 2 ^ 63 then n else n - 2 ^ 64

/-- `timer::is_expired`, with the time that is left. -/
def Timer.isExpired (timer : Timer) (now reference : ℚ) : Bool × ℕ :=
  let timeInterval : ℚ := truncate (now - reference)
  if timeInterval ≥ nanoseconds timer.interval then (true, 0)
  else (false, (truncate (nanoseconds timer.interval - timeInterval)).toNat % 2 ^ 64)

namespace ContextTimers

def init (clock deadline : ℚ) (nextId : ℕ) : ContextTimers where
  clock := clock
  nextId := nextId
  clients _ := ⟨0, 0, false, 0, 0⟩
  clientsMade := 0
  timers _ := ⟨0, []⟩
  timersMade := 0
  mTimers := []
  deadline := deadline
  worker := .idle
  log := []

/-- `timer::client_count` is zero. -/
def unused (s : ContextTimers) (timer : ℕ) : Bool := (s.timers timer).clients = []

/-- `timer::add_client` with a new client. -/
def addClient (s : ContextTimers) (timer : ℕ) (interval : ℚ) (invocationCount : ℕ) :
    ContextTimers :=
  { s with
    nextId := if s.nextId + 1 = 2147483647 then 0 else s.nextId + 1
    clients := Function.update s.clients s.clientsMade
      ⟨s.nextId, invocationCount, false, s.clock, interval⟩
    clientsMade := s.clientsMade + 1
    timers := Function.update s.timers timer
      { s.timers timer with clients := (s.timers timer).clients ++ [s.clientsMade] } }

/-- A new timer, stamped with the present time. -/
def newTimer (s : ContextTimers) (interval : ℚ) : ContextTimers :=
  { s with
    timers := Function.update s.timers s.timersMade ⟨interval, []⟩
    timersMade := s.timersMade + 1
    mTimers := s.mTimers ++ [(s.clock, s.timersMade)] }

/-- The timer that `add_timer` looks for. -/
def findTimer (s : ContextTimers) (interval : ℚ) (invocationCount : ℕ) : Option (ℚ × ℕ) :=
  if invocationCount = 0 then s.mTimers.find? fun p => (s.timers p.2).interval = interval
  else none

def addTimer (s : ContextTimers) (interval : ℚ) (invocationCount : ℕ) : ContextTimers :=
  match s.findTimer interval invocationCount with
  | none => (s.newTimer interval).addClient s.timersMade interval invocationCount
  | some found =>
    if s.unused found.2 then
      (({ s with mTimers := s.mTimers.eraseP fun p => (s.timers p.2).interval = interval } :
        ContextTimers).newTimer interval).addClient s.timersMade interval invocationCount
    else s.addClient found.2 interval invocationCount

/-- `timer::remove_client`: the clients that are left. -/
def removeClient (s : ContextTimers) (timer id : ℕ) : List ℕ :=
  (s.timers timer).clients.eraseP fun c => (s.clients c).id = id

def hasClient (s : ContextTimers) (timer id : ℕ) : Bool :=
  (s.timers timer).clients.any fun c => (s.clients c).id = id

/-- `remove_timer` goes through all timers, and takes out those that lose their last client. -/
def removeTimer (s : ContextTimers) (id : ℕ) : ContextTimers :=
  { s with
    timers := fun t =>
      if t ∈ s.mTimers.map Prod.snd then { s.timers t with clients := s.removeClient t id }
      else s.timers t
    mTimers := s.mTimers.filter fun p => ¬(s.hasClient p.2 id ∧ s.removeClient p.2 id = []) }

/-- The loop of `get_next_timers`: the timers that are due first, the deadline and
`wait_interval`. -/
def nextTimers (s : ContextTimers) (now : ℚ) :
    List (ℚ × ℕ) → List ℕ × ℚ × ℕ → List ℕ × ℚ × ℕ
  | [], acc => acc
  | (stamp, timer) :: rest, (timers, deadline, waitInterval) =>
    if s.unused timer then nextTimers s now rest (timers, deadline, waitInterval)
    else
      let expireInterval := ((s.timers timer).isExpired now stamp).2
      if expireInterval < waitInterval then
        nextTimers s now rest ([timer], now + toInt64 expireInterval, expireInterval)
      else if expireInterval = waitInterval then
        nextTimers s now rest (timers ++ [timer], deadline, waitInterval)
      else nextTimers s now rest (timers, deadline, waitInterval)

/-- `get_next_timers`, with which an iteration begins; timers without clients are cleaned up. -/
def getNextTimers (s : ContextTimers) : ContextTimers :=
  let mTimers := s.mTimers.filter fun p => ¬s.unused p.2
  let r := s.nextTimers s.clock mTimers ([], s.deadline, 2 ^ 64 - 1)
  { s with mTimers := mTimers, deadline := r.2.1, worker := .waiting r.1 }

/-- The erasures of `check_timers`, through iterators that are not adjusted when an element before
them is erased; `none` if one is at the end of the vector or behind it by then, which is
undefined. -/
def eraseTimers (timers removedTimers : List ℕ) : Option (List ℕ) :=
  removedTimers.foldlM (fun timers i =>
    if i < timers.length then some (timers.eraseIdx i) else none) timers

/-- `check_timers`: the pending timers that are still registered are stamped with the deadline,
and the others are erased from the pending ones. `remaining` is what an undefined erasure
leaves. -/
def checkTimers (s : ContextTimers) (pending remaining : List ℕ) : ContextTimers :=
  let registered (t : ℕ) : Bool := t ∈ s.mTimers.map Prod.snd
  let removedTimers := pending.findIdxs fun t => !registered t
  { s with
    mTimers := s.mTimers.map fun p => if p.2 ∈ pending then (s.deadline, p.2) else p
    worker := .invoking [] ((eraseTimers pending removedTimers).getD remaining) }

/-- `client_wrapper::invoke`, and the removal of the client from its timer if that was its last
invocation. -/
def invokeClient (s : ContextTimers) (timer client : ℕ) : ContextTimers :=
  let c := s.clients client
  let expires : Bool := c.invocationCount = 1
  let c' := { c with
    invocationCount := c.invocationCount - 1
    expired := c.expired || expires }
  { s with
    clients := Function.update s.clients client c'
    timers := if c'.expired then
        Function.update s.timers timer
          { s.timers timer with clients := s.removeClient timer c.id }
      else s.timers
    log := s.log ++ [⟨client, s.deadline, s.clock⟩] }

end ContextTimers

/-- The clock goes on, clients are registered and unregistered, and the worker takes its steps:
it begins an iteration, the wait ends at the deadline or before it, a timer is invoked, a client
is invoked, the iteration ends. At the deadline the pending timers are checked; an undefined
erasure may leave any of them. -/
inductive TimerStep
  | tick (time : ℚ)
  | register (interval : ℚ) (invocationCount : ℕ)
  | unregister (id : ℕ)
  | iterate
  | expire (remaining : List ℕ)
  | wake
  | invokeTimer
  | invokeClient
  | endIteration

namespace ContextTimers

/-- One step. -/
def step (s : ContextTimers) : TimerStep → Option ContextTimers
  | .tick time => if s.clock ≤ time then some { s with clock := time } else none
  | .register interval invocationCount => some (s.addTimer interval invocationCount)
  | .unregister id => some (s.removeTimer id)
  | .iterate =>
    match s.worker with
    | .idle => some s.getNextTimers
    | _ => none
  | .expire remaining =>
    match s.worker with
    | .waiting pending =>
      if pending ≠ [] ∧ s.deadline ≤ s.clock ∧ remaining.Sublist pending then
        some (s.checkTimers pending remaining)
      else none
    | _ => none
  | .wake =>
    match s.worker with
    | .waiting _ => some { s with worker := .idle }
    | _ => none
  | .invokeTimer =>
    match s.worker with
    | .invoking [] (timer :: pending) =>
      some { s with
        worker := .invoking ((s.timers timer).clients.map fun c => (timer, c)) pending }
    | _ => none
  | .invokeClient =>
    match s.worker with
    | .invoking ((timer, client) :: executing) pending =>
      some { s.invokeClient timer client with worker := .invoking executing pending }
    | _ => none
  | .endIteration =>
    match s.worker with
    | .invoking [] [] => some { s with worker := .idle }
    | _ => none

/-- No client has been invoked before its interval had elapsed since its registration. -/
def OnTime (s : ContextTimers) : Prop :=
  ∀ e ∈ s.log,
    (s.clients e.client).registered + nanoseconds (s.clients e.client).interval ≤ e.time

/-- The deadlines of the invocations of a client are at least its interval apart. -/
def Spaced (s : ContextTimers) : Prop :=
  s.log.Pairwise fun e e' => e.client = e'.client →
    e.deadline + nanoseconds (s.clients e.client).interval ≤ e'.deadline

/-- The interval is a whole number of nanoseconds that fits the representation of a duration. -/
def WholeInterval (interval : ℚ) : Prop :=
  interval ≤ 0 ∨ ∃ n : ℕ, n < 2 ^ 63 ∧ nanoseconds interval = n

/-- A registration is for a whole number of nanoseconds, and does not join a timer that has
clients. -/
def Alone (s : ContextTimers) : TimerStep → Prop
  | .register interval invocationCount =>
    WholeInterval interval ∧
      ∀ found ∈ s.findTimer interval invocationCount, s.unused found.2 = true
  | _ => True

end ContextTimers

end UtilityFramework
