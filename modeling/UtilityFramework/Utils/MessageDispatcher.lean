import UtilityFramework.Utils.ContextDrain

/-!
# The message dispatcher

`message_dispatcher_base` posts messages to callbacks. For each callback added, it keeps a
`message_invoker` with a dispatcher of its own, and `post_message` hands an action to the
dispatcher of every callback that supports the message, under `m_mutex`. `begin_invoke` runs
the action at once if it is called on the thread of the dispatcher itself, which is the case
for the callback's own invoker where a callback posts a message. The caller holds `m_mutex`
meanwhile, which is not recursive: if the callback, within that delivery, posts a message or
adds or removes a callback, it waits for itself and never returns. Such calls have no steps.

`remove_callback` takes the invoker out of `m_callbacks` under `m_mutex` and gives up the last
reference to it when it returns; the dispatcher is then destroyed and its worker joined. An
invoker is counted by the references to it, and it is destroyed when there is none, whoever
held the last.

Invokers are numbered in the order in which they are created, so that the number stands for
one registration of its callback. `log` records what happens to the registrations, and
`Registration` is what it says about one of them.
-/

namespace UtilityFramework

/-- Who calls an operation: a thread of the application, or a callback on the invocation
thread of its invoker. -/
inductive Caller (τ : Type*)
  | thread (thread : τ)
  | invocation (invoker : ℕ)
  deriving DecidableEq

/-- How far `remove_callback` is with an invoker: it has taken it out of `m_callbacks`, given
up its reference, or returned true. -/
inductive Removal (τ : Type*)
  | none
  | erased (caller : Caller τ)
  | released (caller : Caller τ)
  | returned
  deriving DecidableEq

/-- `message_invoker`. The action number `n` of its dispatcher delivers the message number `n`
of `messages`, which is kept with the caller that posted it. -/
structure MessageInvoker (τ κ μ : Type*) where
  callback : κ
  context : SimpleContext (Caller τ)
  messages : List (Caller τ × μ)
  references : ℕ
  removal : Removal τ

inductive DispatchEvent (τ κ μ : Type*)
  | added (invoker : ℕ) (callback : κ)
  | posted (caller : Caller τ) (message : μ)
  | delivered (invoker : ℕ) (caller : Caller τ) (message : μ)
  | removed (invoker : ℕ)
  | returned (invoker : ℕ)

/-- What the next pending action delivers, when it is invoked. -/
def MessageInvoker.nextDelivery {τ κ μ : Type*} (v : ℕ) (i : MessageInvoker τ κ μ) :
    List (DispatchEvent τ κ μ) :=
  match i.context.pendingActions with
  | [] => []
  | action :: _ =>
    if i.context.stackStopper then []
    else (i.messages[action]?.map fun m => .delivered v m.1 m.2).toList

/-- `m_mutex`: who holds it across steps is a thread in `post_message`, with the invoker it
visits, if it has come to one, and those it has still to visit. -/
inductive CallbacksMutex (τ μ : Type*)
  | free
  | posting (caller : Caller τ) (message : μ) (current : Option ℕ) (rest : List ℕ)

/-- `message_dispatcher_base`; `invokers` are all that have been created. -/
structure MessageDispatcher (τ κ μ : Type*) where
  invokers : List (MessageInvoker τ κ μ)
  callbacks : List ℕ
  mutex : CallbacksMutex τ μ
  log : List (DispatchEvent τ κ μ)

/-- The steps of the operations. `post` lets the thread in `post_message` go on, `release` and
`returnRemove` the thread in `remove_callback`. -/
inductive DispatchStep (τ κ μ : Type*)
  | addCallback (caller : Caller τ) (callback : κ)
  | removeCallback (caller : Caller τ) (callback : κ)
  | release (invoker : ℕ)
  | returnRemove (invoker : ℕ)
  | postMessage (caller : Caller τ) (message : μ) (cancel : Bool)
  | post
  | context (invoker : ℕ) (step : ContextStep (Caller τ))

namespace MessageDispatcher

variable {τ κ μ : Type*}

def init : MessageDispatcher τ κ μ where
  invokers := []
  callbacks := []
  mutex := .free
  log := []

variable (s : MessageDispatcher τ κ μ)

/-- Invoker number `v` changes, and what happens is recorded. -/
def update (v : ℕ) (i : MessageInvoker τ κ μ) (events : List (DispatchEvent τ κ μ)) :
    MessageDispatcher τ κ μ :=
  { s with invokers := s.invokers.set v i, log := s.log ++ events }

/-- The worker of an invoker is in its callback. -/
def invoking (v : ℕ) : Bool :=
  s.invokers[v]?.any fun i =>
    match i.context.worker with
    | .invoking _ => true
    | _ => false

variable [DecidableEq τ] [DecidableEq κ]

/-- The caller is in an operation already. -/
def busy (caller : Caller τ) : Bool :=
  (match s.mutex with
    | .free => false
    | .posting poster _ _ _ => poster == caller) ||
  s.invokers.any fun i => i.removal == .erased caller || i.removal == .released caller

/-- A caller may begin an operation if it is not in one; a callback calls it on its invocation
thread. -/
def mayCall (caller : Caller τ) : Bool :=
  !s.busy caller &&
    match caller with
    | .thread _ => true
    | .invocation v => s.invoking v

/-- The `find_if` of `add_callback` and `remove_callback`. -/
def find (callback : κ) : Option ℕ :=
  s.callbacks.find? fun v => s.invokers[v]?.any fun i => i.callback = callback

/-- A new invoker, whose dispatcher starts its thread. -/
def newInvoker (callback : κ) : MessageInvoker τ κ μ where
  callback := callback
  context := .init false false
  messages := []
  references := 1
  removal := .none

/-- `add_callback`. -/
def addCallback (callback : κ) : Bool × MessageDispatcher τ κ μ :=
  match s.find callback with
  | some _ => (false, s)
  | none =>
    (true, { s with
      invokers := s.invokers ++ [newInvoker callback]
      callbacks := s.callbacks ++ [s.invokers.length]
      log := s.log ++ [.added s.invokers.length callback] })

/-- `remove_callback` up to the release of the mutex. `removed_cb` takes a reference and the
entry of `m_callbacks` gives one up. `none` says that the callback calls it on its own
invocation thread. -/
def removeCallback (caller : Caller τ) (callback : κ) : Option (MessageDispatcher τ κ μ) :=
  match s.find callback with
  | none => some s
  | some v =>
    if caller = .invocation v then none
    else
      s.invokers[v]?.map fun i =>
        { s.update v { i with
            references := i.references + 1 - 1
            removal := .erased caller } [.removed v] with
          callbacks := s.callbacks.erase v }

/-- `removed_cb` goes out of scope. -/
def release (v : ℕ) : Option (MessageDispatcher τ κ μ) :=
  match s.invokers[v]? with
  | none => none
  | some i =>
    match i.removal with
    | .erased caller => some (s.update v { i with
        references := i.references - 1
        removal := .released caller } [])
    | _ => none

/-- `remove_callback` returns true. If its reference was the last, it has to destroy the
invoker first. -/
def returnRemove (v : ℕ) : Option (MessageDispatcher τ κ μ) :=
  match s.invokers[v]? with
  | none => none
  | some i =>
    match i.removal with
    | .released _ =>
      if i.references = 0 ∧ i.context.disposal ≠ .done then none
      else some (s.update v { i with removal := .returned } [.returned v])
    | _ => none

/-- The worker and the destruction of the dispatcher of an invoker. An action that is invoked
delivers its message. -/
def contextStep (v : ℕ) (step : ContextStep (Caller τ)) : Option (MessageDispatcher τ κ μ) :=
  match s.invokers[v]? with
  | none => none
  | some i =>
    match step with
    | .wake | .swapActions | .unlock | .timersInvoked | .endIteration =>
      (i.context.step step).map fun c => s.update v { i with context := c } []
    | .actionReturned =>
      if s.busy (.invocation v) then none
      else (i.context.step step).map fun c => s.update v { i with context := c } []
    | .nextAction =>
      (i.context.step step).map fun c => s.update v { i with context := c } (i.nextDelivery v)
    | .dispose | .joinWorker | .cancelActions =>
      if i.references = 0 then
        (i.context.step step).map fun c => s.update v { i with context := c } []
      else none
    | _ => none

section Post

variable (supported : κ → μ → Bool)

/-- `post_message` up to its loop: `on_message_posting` says whether it is cancelled. -/
def postMessage (caller : Caller τ) (message : μ) (cancel : Bool) :
    MessageDispatcher τ κ μ :=
  if cancel then s
  else { s with
    mutex := .posting caller message none s.callbacks
    log := s.log ++ [.posted caller message] }

/-- The visit ends: the copy of the reference to the invoker is given up. -/
def leave (v : ℕ) (i : MessageInvoker τ κ μ) (caller : Caller τ) (message : μ) (rest : List ℕ)
    (events : List (DispatchEvent τ κ μ)) : MessageDispatcher τ κ μ :=
  { s.update v { i with references := i.references - 1 } events with
    mutex := .posting caller message none rest }

/-- `invoke_async`, for the invoker that the loop has come to. On the invocation thread of the
invoker the message is delivered at once. A dispatcher that is disposed of throws, which ends
`post_message`. -/
def invokeAsync (v : ℕ) (i : MessageInvoker τ κ μ) (caller : Caller τ) (message : μ)
    (rest : List ℕ) : Option (MessageDispatcher τ κ μ) :=
  if supported i.callback message then
    if caller = .invocation v then
      some (s.leave v i caller message rest [.delivered v caller message])
    else
      match i.context.mutex with
      | .adding _ =>
        (i.context.step (.pushAction caller)).map fun c =>
          s.leave v { i with
            context := c
            messages := i.messages ++ [(caller, message)] } caller message rest []
      | _ =>
        if i.context.running then
          (i.context.step (.addAction caller)).map fun c => s.update v { i with context := c } []
        else
          some { s.leave v i caller message rest [] with mutex := .free }
  else some (s.leave v i caller message rest [])

/-- The thread in `post_message` goes on. -/
def post : Option (MessageDispatcher τ κ μ) :=
  match s.mutex with
  | .free => none
  | .posting _ _ none [] => some { s with mutex := .free }
  | .posting caller message none (v :: rest) =>
    s.invokers[v]?.map fun i =>
      { s.update v { i with references := i.references + 1 } [] with
        mutex := .posting caller message (some v) rest }
  | .posting caller message (some v) rest =>
    s.invokers[v]?.bind fun i => s.invokeAsync supported v i caller message rest

/-- One step. `none` says that it cannot be taken. -/
def step : DispatchStep τ κ μ → Option (MessageDispatcher τ κ μ)
  | .addCallback caller callback =>
    match s.mutex with
    | .free => if s.mayCall caller then some (s.addCallback callback).2 else none
    | _ => none
  | .removeCallback caller callback =>
    match s.mutex with
    | .free => if s.mayCall caller then s.removeCallback caller callback else none
    | _ => none
  | .release v => s.release v
  | .returnRemove v => s.returnRemove v
  | .postMessage caller message cancel =>
    match s.mutex with
    | .free => if s.mayCall caller then some (s.postMessage caller message cancel) else none
    | _ => none
  | .post => s.post supported
  | .context v step => s.contextStep v step

end Post

end MessageDispatcher

/-! ### What the log says about a registration -/

/-- The callback, while it is registered; the messages it supports that have been posted
meanwhile; those delivered; whether the `remove_callback` that removed it has returned. -/
structure Registration (τ κ μ : Type*) where
  callback : Option κ
  posted : List (Caller τ × μ)
  delivered : List (Caller τ × μ)
  returned : Bool

namespace Registration

variable {τ κ μ : Type*}

def empty : Registration τ κ μ := ⟨none, [], [], false⟩

/-- What an event says about the registration number `v`. -/
def observe (supported : κ → μ → Bool) (v : ℕ) (r : Registration τ κ μ) :
    DispatchEvent τ κ μ → Registration τ κ μ
  | .added u callback => if u = v then { r with callback := some callback } else r
  | .posted caller message =>
    if r.callback.any (supported · message) then
      { r with posted := r.posted ++ [(caller, message)] }
    else r
  | .delivered u caller message =>
    if u = v then { r with delivered := r.delivered ++ [(caller, message)] } else r
  | .removed u => if u = v then { r with callback := none } else r
  | .returned u => if u = v then { r with returned := true } else r

end Registration

/-- The registration number `v` in a state. -/
def MessageDispatcher.registration {τ κ μ : Type*} (s : MessageDispatcher τ κ μ)
    (supported : κ → μ → Bool) (v : ℕ) : Registration τ κ μ :=
  s.log.foldl (Registration.observe supported v) .empty

end UtilityFramework
