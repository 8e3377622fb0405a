import Aiopquic.Lib.AssocCount
import Aiopquic.Lib.Steps
import Mathlib.Logic.Function.Basic

/-!
# Sessions and their dispatchers (`webtransport.py`)

The WebTransport events of a transport go to a `_Dispatcher`, which routes each to the session under
its `stream_ctx` pointer. A process-wide registry has one dispatcher for a loop and a transport, filed
under their `id()`s. It is made when a session or an acceptor is attached, and retired when the last
of them goes. A retiring `detach_session` first cancels and awaits the dispatcher's tasks: others may
attach meanwhile, or detach too, and the wait may be cancelled.

A loop with a transport is a pair here, alive as long as anybody has a reference to both. An `id()` is
unique among the pairs alive, and a `session_ptr` among the sessions alive.
-/

namespace Aiopquic

/-- A `_Dispatcher`. `tasks` are the acceptor's coroutines, and `reads` tells that its `_drain` is
set as the reader. -/
structure Dispatcher where
  pair : ℕ := 0
  sessions : AList fun _ : ℕ => ℕ := ∅
  spawned : List ℕ := []
  tasks : List ℕ := []
  acceptor : Bool := false
  reads : Bool := false

/-- A `detach_session` that awaits the tasks it has cancelled. -/
structure Detaching where
  key : ℕ
  dispatcher : ℕ
  pending : List ℕ

/-- How the factory and the acceptor answer to a new session. The session that a factory makes
attaches itself first. -/
inductive SpawnAnswer
  | factoryRaises (attached : Bool)
  | acceptorRaises
  | accepts (coroutine : Bool)
  deriving DecidableEq, Repr

/-- The registry, and what it is about. Pairs, sessions, dispatchers and tasks are numbered. -/
structure Dispatchers where
  /-- `(id(loop), id(transport))`. -/
  ids : ℕ → ℕ := fun _ => 0
  alive : List ℕ := []
  pairs : ℕ := 0
  ptrOf : ℕ → ℕ := fun _ => 0
  pairOf : ℕ → ℕ := fun _ => 0
  /-- `_dispatcher_attached`. -/
  attached : ℕ → Bool := fun _ => false
  /-- The session objects alive. -/
  held : List ℕ := []
  sessionCount : ℕ := 0
  dispatchers : ℕ → Dispatcher := fun _ => {}
  count : ℕ := 0
  registry : ℕ → Option ℕ := fun _ => none
  detaching : List Detaching := []
  /-- The tasks that are not done. -/
  running : List ℕ := []
  taskCount : ℕ := 0
  /-- History: the sessions that were attached, and neither detached, nor closed by the peer, nor
  dropped with their acceptor. -/
  told : ℕ → Bool := fun _ => false
  /-- History: the sessions that an acceptor was given. -/
  accepted : ℕ → Bool := fun _ => false
  /-- History: the dispatchers that were left unused without being retired. -/
  idle : List ℕ := []

/-- `not d._sessions`. -/
def Dispatcher.Empty (x : Dispatcher) : Prop := x.sessions = ∅

instance (x : Dispatcher) : Decidable x.Empty :=
  decidable_of_iff (x.sessions.entries = [])
    ⟨fun h => AList.ext h, fun h => congrArg AList.entries h⟩

namespace Dispatchers

def setDispatcher (s : Dispatchers) (d : ℕ) (x : Dispatcher) : Dispatchers :=
  { s with dispatchers := Function.update s.dispatchers d x }

/-- `_Dispatcher.detach` and the entry's deletion. -/
def retire (s : Dispatchers) (key d : ℕ) : Dispatchers :=
  { s.setDispatcher d { s.dispatchers d with reads := false } with
    registry := Function.update s.registry key none }

/-- A new `_Dispatcher` under the pair's ids. -/
def create (s : Dispatchers) (p : ℕ) : Dispatchers :=
  { s.setDispatcher s.count { pair := p, reads := true } with
    count := s.count + 1
    registry := Function.update s.registry (s.ids p) (some s.count) }

/-- `_lookup`: the dispatcher of exactly this pair. -/
def lookup (s : Dispatchers) (p : ℕ) : Option ℕ :=
  match s.registry (s.ids p) with
  | none => none
  | some d => if (s.dispatchers d).pair = p then some d else none

/-- `_get_or_create`: the dispatcher, which may be new. -/
def getOrCreate (s : Dispatchers) (p : ℕ) : ℕ × Dispatchers :=
  match s.registry (s.ids p) with
  | none => (s.count, s.create p)
  | some d =>
    if (s.dispatchers d).pair = p then (d, s) else (s.count, (s.retire (s.ids p) d).create p)

/-- `add_session`. -/
def addSession (s : Dispatchers) (d x : ℕ) : Dispatchers :=
  { s.setDispatcher d { s.dispatchers d with
      sessions := (s.dispatchers d).sessions.insert (s.ptrOf x) x } with
    told := Function.update s.told x true }

/-- `remove_session`. -/
def removeSession (s : Dispatchers) (d x : ℕ) : Dispatchers :=
  { s.setDispatcher d { s.dispatchers d with
      sessions := (s.dispatchers d).sessions.erase (s.ptrOf x) } with
    told := Function.update s.told x false }

/-- `attach`, by `_attach_dispatcher`. -/
def attach (s : Dispatchers) (x : ℕ) : Dispatchers :=
  let c := s.getOrCreate (s.pairOf x)
  { c.2.addSession c.1 x with attached := Function.update c.2.attached x true }

/-- `attach_acceptor`. -/
def attachAcceptor (s : Dispatchers) (p : ℕ) : Dispatchers :=
  let c := s.getOrCreate p
  c.2.setDispatcher c.1 { c.2.dispatchers c.1 with acceptor := true }

/-- A dispatcher with neither a session nor an acceptor. -/
def Unused (s : Dispatchers) (d : ℕ) : Prop :=
  (s.dispatchers d).Empty ∧ (s.dispatchers d).acceptor = false

instance (s : Dispatchers) (d : ℕ) : Decidable (s.Unused d) := inferInstanceAs (Decidable (_ ∧ _))

/-- The sessions that an acceptor was given go with it. -/
def dropSpawned (s : Dispatchers) (d : ℕ) : Dispatchers :=
  let x := s.dispatchers d
  { s.setDispatcher d { x with
      acceptor := false
      sessions := x.spawned.foldl (fun t ptr => t.erase ptr) x.sessions
      spawned := [] } with
    told := fun y => s.told y &&
      !(s.accepted y && decide (s.ptrOf y ∈ x.spawned) && x.sessions.lookup (s.ptrOf y) == some y) }

/-- `detach_acceptor`. -/
def detachAcceptor (s : Dispatchers) (p : ℕ) : Dispatchers :=
  match s.lookup p with
  | none => s
  | some d =>
    let s := s.dropSpawned d
    if (s.dispatchers d).Empty then s.retire (s.ids p) d else s

/-- A dispatcher that is left without being retired. -/
def leave (s : Dispatchers) (d : ℕ) : Dispatchers :=
  if s.Unused d then { s with idle := d :: s.idle } else s

/-- `release`: the dispatcher stays. -/
def release (s : Dispatchers) (x : ℕ) : Dispatchers :=
  match s.lookup (s.pairOf x) with
  | none => { s with told := Function.update s.told x false }
  | some d => (s.removeSession d x).leave d

/-- `cancel_tasks`: the tasks that the caller has to await, which are not its own. -/
def cancelTasks (s : Dispatchers) (d : ℕ) (current : Option ℕ) : List ℕ :=
  (s.dispatchers d).tasks.filter fun t => t ∈ s.running ∧ current ≠ some t

/-- `detach`, up to its first wait; `current` is the task that runs it. -/
def detach (s : Dispatchers) (x : ℕ) (current : Option ℕ) : Dispatchers :=
  if s.attached x = false then s
  else
    let s := { s with attached := Function.update s.attached x false }
    match s.lookup (s.pairOf x) with
    | none => { s with told := Function.update s.told x false }
    | some d =>
      let s := s.removeSession d x
      if ¬ s.Unused d then s
      else if s.cancelTasks d current = [] then s.retire (s.ids (s.pairOf x)) d
      else
        { s with detaching := s.detaching ++
          [⟨s.ids (s.pairOf x), d, s.cancelTasks d current⟩] }

/-- The rest of a `detach` whose tasks are done. -/
def resume (s : Dispatchers) (t : Detaching) : Dispatchers :=
  if s.registry t.key = some t.dispatcher ∧ s.Unused t.dispatcher then
    s.retire t.key t.dispatcher
  else s

/-- A session object, with its struct at `ptr`. -/
def newSession (s : Dispatchers) (p ptr : ℕ) : Dispatchers :=
  { s with
    ptrOf := Function.update s.ptrOf s.sessionCount ptr
    pairOf := Function.update s.pairOf s.sessionCount p
    held := s.sessionCount :: s.held
    sessionCount := s.sessionCount + 1 }

/-- The end of `_spawn_server_session`: the session is the dispatcher's own. -/
def spawn (s : Dispatchers) (d x : ℕ) : Dispatchers :=
  let s := s.addSession d x
  { s.setDispatcher d { s.dispatchers d with
      spawned := s.ptrOf x :: (s.dispatchers d).spawned } with
    accepted := Function.update s.accepted x true }

/-- The acceptor's coroutine becomes a task of the dispatcher. -/
def createTask (s : Dispatchers) (d : ℕ) : Dispatchers :=
  { s.setDispatcher d { s.dispatchers d with tasks := s.taskCount :: (s.dispatchers d).tasks } with
    running := s.taskCount :: s.running
    taskCount := s.taskCount + 1 }

/-- `_spawn_server_session`, for a struct that no session has. -/
def spawnServerSession (s : Dispatchers) (d ptr : ℕ) (answer : SpawnAnswer) : Dispatchers :=
  if ((s.dispatchers d).sessions.lookup ptr).isSome then s
  else
    let x := s.sessionCount
    let made := s.newSession (s.dispatchers d).pair ptr
    match answer with
    | .factoryRaises false => s
    | .factoryRaises true => made.attach x
    | .acceptorRaises => (made.attach x).spawn d x
    | .accepts false => (made.attach x).spawn d x
    | .accepts true => ((made.attach x).spawn d x).createTask d

/-- `route_event` of a `WT_NEW_SESSION`; with no acceptor nobody has the pointer. -/
def newSessionEvent (s : Dispatchers) (d ptr : ℕ) (answer : SpawnAnswer) : Dispatchers :=
  if (s.dispatchers d).acceptor then s.spawnServerSession d ptr answer else s

/-- `route_event` of another event: the session that gets it. -/
def routeEvent (s : Dispatchers) (d ptr : ℕ) : Option ℕ := (s.dispatchers d).sessions.lookup ptr

/-! ## Steps -/

inductive Act
  /-- A loop and a transport come to be, and go. -/
  | create (id : ℕ)
  | die (p : ℕ)
  | newSession (p ptr : ℕ)
  /-- The last reference to a session goes. -/
  | drop (x : ℕ)
  | attach (x : ℕ)
  | attachAcceptor (p : ℕ)
  | newSessionEvent (d ptr : ℕ) (answer : SpawnAnswer)
  | detach (x : ℕ) (current : Option ℕ)
  /-- The `k`-th waiting detach goes on, or its wait is cancelled. -/
  | resume (k : ℕ)
  | cancel (k : ℕ)
  /-- A server session is closed by its peer. -/
  | release (x : ℕ)
  | detachAcceptor (p : ℕ)
  | taskDone (t : ℕ)

/-- No session alive has its struct there. -/
def FreePtr (s : Dispatchers) (ptr : ℕ) : Prop := ∀ x ∈ s.held, s.ptrOf x ≠ ptr

instance (s : Dispatchers) (ptr : ℕ) : Decidable (s.FreePtr ptr) :=
  inferInstanceAs (Decidable (∀ _ ∈ _, _))

/-- Nobody has a reference to the pair: no registered dispatcher, no session, no waiting detach. -/
def Unreferenced (s : Dispatchers) (p : ℕ) : Prop :=
  (∀ d < s.count, (s.dispatchers d).pair = p → s.registry (s.ids p) ≠ some d) ∧
    (∀ x ∈ s.held, s.pairOf x ≠ p) ∧ ∀ t ∈ s.detaching, (s.dispatchers t.dispatcher).pair ≠ p

instance (s : Dispatchers) (p : ℕ) : Decidable (s.Unreferenced p) :=
  inferInstanceAs (Decidable ((∀ _ < _, _) ∧ _ ∧ _))

/-- No dispatcher has the session. -/
def Unrouted (s : Dispatchers) (x : ℕ) : Prop :=
  ∀ d < s.count, (s.dispatchers d).sessions.lookup (s.ptrOf x) ≠ some x

instance (s : Dispatchers) (x : ℕ) : Decidable (s.Unrouted x) :=
  inferInstanceAs (Decidable (∀ _ < _, _))

/-- One step. -/
def step (s : Dispatchers) : Act → Option Dispatchers
  | .create id =>
    if ∀ p ∈ s.alive, s.ids p ≠ id then
      some { s with
        ids := Function.update s.ids s.pairs id
        alive := s.pairs :: s.alive
        pairs := s.pairs + 1 }
    else none
  | .die p =>
    if p ∈ s.alive ∧ s.Unreferenced p then some { s with alive := s.alive.filter (· ≠ p) } else none
  | .newSession p ptr =>
    if p ∈ s.alive ∧ s.FreePtr ptr then some (s.newSession p ptr) else none
  | .drop x =>
    if x ∈ s.held ∧ s.Unrouted x then
      some { s with
        held := s.held.filter (· ≠ x)
        told := Function.update s.told x false }
    else none
  | .attach x => if x ∈ s.held ∧ s.attached x = false then some (s.attach x) else none
  | .attachAcceptor p => if p ∈ s.alive then some (s.attachAcceptor p) else none
  | .newSessionEvent d ptr answer =>
    if d < s.count ∧ s.FreePtr ptr then some (s.newSessionEvent d ptr answer) else none
  | .detach x current => if x ∈ s.held then some (s.detach x current) else none
  | .resume k =>
    match s.detaching[k]? with
    | none => none
    | some t =>
      if ∀ i ∈ t.pending, i ∉ s.running then
        some (resume { s with detaching := s.detaching.eraseIdx k } t)
      else none
  | .cancel k =>
    match s.detaching[k]? with
    | none => none
    | some t => some (leave { s with detaching := s.detaching.eraseIdx k } t.dispatcher)
  | .release x => if x ∈ s.held then some (s.release x) else none
  | .detachAcceptor p => if p ∈ s.alive then some (s.detachAcceptor p) else none
  | .taskDone t => some { s with running := s.running.filter (· ≠ t) }

end Dispatchers

end Aiopquic
