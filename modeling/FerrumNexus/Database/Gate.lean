import Mathlib.Tactic

/-!
# One connection, many callers

SQLite has one connection. A repository call runs at once when no transaction is
open or its caller belongs to the open one, and otherwise waits on a queue; a
transaction waits on the queue unless it joins the one its caller belongs to. A
thread is a chain of awaited code: it may be inside a transaction's body and
inside repository methods, one within another, and it waits when its call is
queued. Detached code is a thread of its own. Between two steps of a thread any
others may run. A repository method runs its own statements before it first
awaits anything, and calls nothing but gated methods afterwards.
-/
namespace FerrumNexus.Database

/-- What reaches the connection, with the token of the caller's context and the
transaction whose body the caller is running. A probe is `healthCheck`. -/
inductive Event
  | begin (token : ℕ)
  | commit (token : ℕ)
  | rollback (token : ℕ)
  | statement (context own : Option ℕ)
  | probe (context : Option ℕ)
  deriving DecidableEq, Repr

/-- `base` is the token of the context the thread was started in. -/
structure Thread where
  base : Option ℕ
  body : Option ℕ
  methods : ℕ
  parked : Bool
  deriving DecidableEq, Repr

/-- `txContext.getStore()`. -/
def Thread.context (thread : Thread) : Option ℕ := thread.body.or thread.base

/-- A place in the queue: a transaction with its token, or a repository call
with how deep in methods it is. -/
structure Entry where
  thread : ℕ
  token : Option ℕ
  depth : ℕ
  started : Bool
  deriving DecidableEq, Repr

/-- The store, its callers and what reached the connection, the newest first. -/
structure Gate where
  activeTx : Option ℕ
  queue : List Entry
  threads : ℕ → Option Thread
  nextThread : ℕ
  nextToken : ℕ
  trace : List Event

def Gate.init : Gate := ⟨none, [], fun _ => none, 0, 0, []⟩

/-- `ownsOpenTransaction`. -/
def Gate.ownsOpenTransaction (g : Gate) (thread : Thread) : Bool :=
  g.activeTx.isSome && thread.context == g.activeTx

def Gate.setThread (g : Gate) (i : ℕ) (thread : Thread) : Gate :=
  { g with threads := Function.update g.threads i (some thread) }

def Gate.log (g : Gate) (event : Event) : Gate :=
  { g with trace := event :: g.trace }

/-- A new thread in a context. -/
def Gate.launch (g : Gate) (context : Option ℕ) : Gate :=
  { g.setThread g.nextThread ⟨context, none, 0, false⟩ with nextThread := g.nextThread + 1 }

/-- `mediate`, of a call by a thread. -/
def Gate.mediate (g : Gate) (i : ℕ) (thread : Thread) : Gate :=
  let called := { thread with methods := thread.methods + 1 }
  if g.activeTx.isNone || g.ownsOpenTransaction thread then
    (g.setThread i called).log (.statement thread.context thread.body)
  else
    { g.setThread i { called with parked := true } with
      queue := g.queue ++ [⟨i, none, called.methods, false⟩] }

/-- `transaction`. A body that joins runs on as part of its caller. -/
def Gate.transaction (g : Gate) (i : ℕ) (thread : Thread) : Gate :=
  if g.ownsOpenTransaction thread then g
  else
    { g.setThread i { thread with parked := true } with
      queue := g.queue ++ [⟨i, some g.nextToken, 0, false⟩]
      nextToken := g.nextToken + 1 }

/-- The queue's promise has settled and its next entry runs. -/
def Gate.start (g : Gate) : Option Gate :=
  match g.queue with
  | ⟨i, token, depth, false⟩ :: rest =>
    (g.threads i).map fun thread =>
      let running : Gate := { g with queue := ⟨i, token, depth, true⟩ :: rest }
      match token with
      | none =>
        (running.setThread i { thread with parked := false }).log
          (.statement thread.context thread.body)
      | some t =>
        ({ running with activeTx := some t }.setThread i
          { thread with body := some t, parked := false }).log (.begin t)
  | _ => none

/-- `BEGIN IMMEDIATE` throws. -/
def Gate.startFails (g : Gate) : Option Gate :=
  match g.queue with
  | ⟨i, some _, _, false⟩ :: rest =>
    (g.threads i).map fun thread =>
      { g with queue := rest }.setThread i { thread with parked := false }
  | _ => none

/-- The queue once a method at some depth has settled. -/
def settle (queue : List Entry) (i depth : ℕ) : List Entry :=
  match queue with
  | e :: rest => if e.started && e.thread == i && e.token.isNone && e.depth == depth then rest
    else e :: rest
  | [] => []

/-- The innermost thing a thread is inside returns or throws. -/
def Gate.finish (g : Gate) (i : ℕ) (thread : Thread) (threw : Bool) : Gate :=
  if 0 < thread.methods then
    { g.setThread i { thread with methods := thread.methods - 1 } with
      queue := settle g.queue i thread.methods }
  else
    match thread.body with
    | some t =>
      ({ g with activeTx := none, queue := g.queue.tail }.setThread i
        { thread with body := none }).log (if threw then .rollback t else .commit t)
    | none => { g with threads := Function.update g.threads i none }

inductive Action
  | arrive
  | spawn (i : ℕ)
  | call (i : ℕ)
  | transaction (i : ℕ)
  | raw (i : ℕ)
  | probe (i : ℕ)
  | start
  | startFails
  | finish (i : ℕ) (threw : Bool)
  deriving DecidableEq, Repr

/-- A thread that waits for nothing. -/
def Gate.running (g : Gate) (i : ℕ) : Option Thread :=
  (g.threads i).filter fun thread => !thread.parked

/-- One step of the process. A transaction's body may issue statements on the
connection itself while the transaction is open; a repository method opens no
transaction. -/
def Gate.step (g : Gate) : Action → Option Gate
  | .arrive => some (g.launch none)
  | .spawn i => (g.running i).map fun thread => g.launch thread.context
  | .call i => (g.running i).map fun thread => g.mediate i thread
  | .transaction i =>
    ((g.running i).filter fun thread => thread.methods == 0).map fun thread => g.transaction i thread
  | .raw i =>
    ((g.running i).filter g.ownsOpenTransaction).map fun thread =>
      g.log (.statement thread.context thread.body)
  | .probe i => (g.running i).map fun thread => g.log (.probe thread.context)
  | .start => g.start
  | .startFails => g.startFails
  | .finish i threw => (g.running i).map fun thread => g.finish i thread threw

def Gate.run (g : Gate) (actions : List Action) : Option Gate :=
  actions.foldlM Gate.step g

end FerrumNexus.Database
