import EpollCoroutine.Lib.Lts

/-!
# Coroutines of type `std::task`

The coroutine type of `include/task.hh`, with the C++ stack of the coroutines that run inside one
another.

* `Frame V`: a coroutine frame with its promise, and the `task` object that `get_return_object` made
  for it. `V` is the type of results.
* `Machine V`: all frames, and the stack of running bodies, innermost first. `task::await_suspend`
  and `final_awaiter::await_suspend` do nothing after the `resume()` in them returns, so the resumed
  body takes the place of the one that is suspended; `task::resume` and `task::detach` return into
  the body that called them, which stays on the stack.
* `Action`: what the running body, the innermost one, or the event loop does next.
* `uses`: every operation that `task` and `final_awaiter` apply to a `coroutine_handle`, with the
  place where the frame was at that moment.

A task that is not awaited may be kept in any variable and is dropped at any time, whoever runs.
Destroying a suspended frame destroys the tasks that its full expression is awaiting, and so on.
-/

namespace EpollCoroutine.Coroutine

/-- `coroutine_handle<>`: which frame. -/
abbrev Handle := ℕ

/-- Where a coroutine is. -/
inductive Place
  | initial
  | running
  | suspended
  | awaiting (child : Handle)
  | final
  | destroyed
  deriving DecidableEq

/-- How a body ends. -/
inductive Exit (V : Type)
  | returned (v : V)
  | threw
  deriving DecidableEq

/-- A frame: the promise (`waiter`, `result`, which is not initialised at first), the temporary
tasks that the current full expression of the body awaits, and `mDetached` of the frame's own task.
`held` says that this task is an object other than such a temporary and not dropped yet, `started`
that the body has begun, and `ended` how it has ended. -/
structure Frame (V : Type) where
  place : Place
  waiter : Option Handle := none
  result : Option V := none
  temps : List Handle := []
  mDetached : Bool := false
  held : Bool := false
  started : Bool := false
  ended : Option (Exit V) := none

namespace Frame

variable {V : Type}

/-- No frame yet. -/
def unborn : Frame V := { place := .destroyed }

/-- The body ends: `return_value` stores the result, `unhandled_exception` does nothing. -/
def exit (x : Frame V) (e : Exit V) : Frame V :=
  match e with
  | .returned v => { x with result := some v, ended := some e }
  | .threw => { x with ended := some e }

@[simp] theorem exit_waiter (x : Frame V) (e : Exit V) : (x.exit e).waiter = x.waiter := by
  cases e <;> rfl

@[simp] theorem exit_temps (x : Frame V) (e : Exit V) : (x.exit e).temps = x.temps := by
  cases e <;> rfl

@[simp] theorem exit_ended (x : Frame V) (e : Exit V) : (x.exit e).ended = some e := by
  cases e <;> rfl

/-- `coroutine_handle::done`. The memory of a destroyed frame reads as anything. -/
def done (x : Frame V) (junk : Bool) : Bool :=
  match x.place with
  | .final => true
  | .destroyed => junk
  | .initial | .running | .suspended | .awaiting _ => false

/-- Whether `~task` destroys the frame. -/
def destroysOnDrop (x : Frame V) (junk : Bool) : Bool :=
  if x.done junk && x.mDetached then false
  else if x.done junk || !x.mDetached then true
  else false

/-- `done()` does not matter: `~task` destroys the frame unless it is detached. -/
theorem destroysOnDrop_eq (x : Frame V) (junk : Bool) : x.destroysOnDrop junk = !x.mDetached := by
  unfold destroysOnDrop
  cases x.done junk <;> cases x.mDetached <;> rfl

end Frame

/-- The operations of `coroutine_handle`. -/
inductive Op
  | resume
  | done
  | promise
  | destroy
  deriving DecidableEq

/-- An operation on a handle, and where the frame was. -/
structure Use where
  op : Op
  handle : Handle
  place : Place
  deriving DecidableEq

/-- All coroutines. `delivered` lists what `task::await_resume` has given to awaiting bodies. -/
structure Machine (V : Type) where
  frame : Handle → Frame V
  next : Handle
  stack : List Handle
  uses : List Use
  delivered : List (Handle × Option V)

/-- What happens next. -/
inductive Action (V : Type)
  | call
  | await
  | detach (f : Handle)
  | resume (f : Handle)
  | drop (f : Handle)
  | suspend
  | wake (f : Handle)
  | endExpr
  | finish (e : Exit V)

/-- An action, with what `done()` reads if the frame has been destroyed. The two reads in `~task`
see the same memory. -/
structure Label (V : Type) where
  act : Action V
  junk : Bool

namespace Machine

variable {V : Type} (M : Machine V)

/-- No coroutine has been called. -/
def start : Machine V := ⟨fun _ => .unborn, 0, [], [], []⟩

/-- Where the coroutine is. -/
def place (f : Handle) : Place := (M.frame f).place

/-- The operations `ops` on the handle `f`. -/
def usesOf (ops : List Op) (f : Handle) : List Use := ops.map fun op => ⟨op, f, M.place f⟩

/-- Change a frame. -/
def modify (f : Handle) (g : Frame V → Frame V) : Machine V :=
  { M with frame := Function.update M.frame f (g (M.frame f)) }

/-- Whether `c` is in `l`, or awaited in the full expression of a frame of which this holds. -/
def below (l : List Handle) : ℕ → Handle → Bool
  | 0, c => decide (c ∈ l)
  | n + 1, c => decide (c ∈ l) ||
    match (M.frame c).waiter with
    | some g => decide (c ∈ (M.frame g).temps) && below l n g
    | none => false

/-- The frames that are destroyed together with those of `l`. -/
def victims (l : List Handle) : List Handle := (List.range M.next).filter (M.below l M.next)

/-- The task objects of `l` are destroyed; if `owner` is a frame, they are its temporaries. A
temporary of a destroyed frame is destroyed by `~task` too. -/
def dropTasks (owner : Option Handle) (l : List Handle) (junk : Bool) : Machine V :=
  let v := M.victims (l.filter fun c => (M.frame c).destroysOnDrop junk)
  { M with
    frame := fun c =>
      if c ∈ v then { M.frame c with place := .destroyed, temps := [], held := false }
      else { M.frame c with
        temps := if owner = some c then [] else (M.frame c).temps
        held := (M.frame c).held && decide (c ∉ l) }
    uses := M.uses ++ (l ++ v.filter fun c => c ∉ l).flatMap (M.usesOf [.promise, .done]) ++
      v.flatMap (M.usesOf [.destroy]) }

/-- A coroutine is called: the frame is created and suspended at once, and its task is kept. The
constructor of `task` reads the promise. -/
def call : Machine V :=
  { M with
    frame := Function.update M.frame M.next { place := .initial, held := true }
    next := M.next + 1
    uses := M.uses ++ [⟨.promise, M.next, .initial⟩] }

/-- `co_await` of a new temporary in the body of `g`: `task::await_suspend`. -/
def await (g : Handle) (rest : List Handle) : Machine V :=
  { M with
    frame := Function.update
      (Function.update M.frame g
        { M.frame g with place := .awaiting M.next, temps := M.next :: (M.frame g).temps })
      M.next { place := .running, waiter := some g, started := true }
    next := M.next + 1
    stack := M.next :: rest
    uses := M.uses ++ [⟨.promise, M.next, .initial⟩, ⟨.promise, M.next, .initial⟩,
      ⟨.resume, M.next, .initial⟩] }

/-- `task::resume`, preceded by `mDetached = true` in `task::detach`. -/
def begin (f : Handle) (detached : Bool) : Machine V :=
  { M.modify f fun x => { x with place := .running, started := true, mDetached := x.mDetached || detached } with
    stack := f :: M.stack
    uses := M.uses ++ M.usesOf [.resume] f }

/-- The body of `f` ends, and `final_awaiter::await_suspend` is called. It resumes the waiter, where
`await_resume` of the task reads the result, or destroys the frame. -/
def finish (f : Handle) (rest : List Handle) (e : Exit V) : Machine V :=
  let x := (M.frame f).exit e
  match x.waiter with
  | some g =>
    { M with
      frame := Function.update (Function.update M.frame f { x with place := .final }) g
        { M.frame g with place := .running }
      stack := g :: rest
      uses := M.uses ++
        [⟨.promise, f, .final⟩, ⟨.promise, f, .final⟩, ⟨.resume, g, M.place g⟩,
        ⟨.promise, f, .final⟩]
      delivered := M.delivered ++ [(f, x.result)] }
  | none =>
    { M with
      frame := Function.update M.frame f { x with place := .destroyed }
      stack := rest
      uses := M.uses ++ [⟨.promise, f, .final⟩, ⟨.destroy, f, .final⟩] }

/-- Suspend the innermost body, which is that of `f`. -/
def pause (f : Handle) (rest : List Handle) : Machine V :=
  { M.modify f fun x => { x with place := .suspended } with stack := rest }

/-- Continue a suspended body. -/
def wake (f : Handle) : Machine V :=
  { M.modify f fun x => { x with place := .running } with stack := f :: M.stack }

/-- One step. A body whose frame was destroyed while it was running goes on until it suspends or
ends. -/
def step (l : Label V) : Option (Machine V) :=
  match l.act with
  | .call => some M.call
  | .await =>
    match M.stack with
    | g :: rest => if M.place g = .running then some (M.await g rest) else none
    | [] => none
  | .detach f => if (M.frame f).held && !(M.frame f).started then some (M.begin f true) else none
  | .resume f => if (M.frame f).held && !(M.frame f).started then some (M.begin f false) else none
  | .drop f => if (M.frame f).held then some (M.dropTasks none [f] l.junk) else none
  | .suspend =>
    match M.stack with
    | f :: rest =>
      if M.place f = .running then some (M.pause f rest)
      else if M.place f = .destroyed then some { M with stack := rest }
      else none
    | [] => none
  | .wake f =>
    if M.place f = .suspended then some (M.wake f) else none
  | .endExpr =>
    match M.stack with
    | g :: _ =>
      if M.place g = .running then some (M.dropTasks (some g) (M.frame g).temps l.junk) else none
    | [] => none
  | .finish e =>
    match M.stack with
    | f :: rest =>
      if M.place f = .running ∧ (M.frame f).temps = [] then some (M.finish f rest e)
      else if M.place f = .destroyed then
        some { M with stack := rest, uses := M.uses ++ M.usesOf [.promise] f }
      else none
    | [] => none

/-- What a step can be. -/
inductive StepCase : Label V → Machine V → Prop
  | call {junk : Bool} : StepCase ⟨.call, junk⟩ M.call
  | await {junk : Bool} {g : Handle} {rest : List Handle} (hstack : M.stack = g :: rest)
      (hg : M.place g = .running) : StepCase ⟨.await, junk⟩ (M.await g rest)
  | detach {junk : Bool} {f : Handle} (hheld : (M.frame f).held = true)
      (hstarted : (M.frame f).started = false) : StepCase ⟨.detach f, junk⟩ (M.begin f true)
  | resume {junk : Bool} {f : Handle} (hheld : (M.frame f).held = true)
      (hstarted : (M.frame f).started = false) : StepCase ⟨.resume f, junk⟩ (M.begin f false)
  | drop {junk : Bool} {f : Handle} (hheld : (M.frame f).held = true) :
      StepCase ⟨.drop f, junk⟩ (M.dropTasks none [f] junk)
  | suspend {junk : Bool} {f : Handle} {rest : List Handle} (hstack : M.stack = f :: rest)
      (hf : M.place f = .running) : StepCase ⟨.suspend, junk⟩ (M.pause f rest)
  | suspendDestroyed {junk : Bool} {f : Handle} {rest : List Handle} (hstack : M.stack = f :: rest)
      (hf : M.place f = .destroyed) : StepCase ⟨.suspend, junk⟩ { M with stack := rest }
  | wake {junk : Bool} {f : Handle} (hf : M.place f = .suspended) : StepCase ⟨.wake f, junk⟩ (M.wake f)
  | endExpr {junk : Bool} {g : Handle} {rest : List Handle} (hstack : M.stack = g :: rest)
      (hg : M.place g = .running) :
      StepCase ⟨.endExpr, junk⟩ (M.dropTasks (some g) (M.frame g).temps junk)
  | finish {junk : Bool} {f : Handle} {rest : List Handle} {e : Exit V} (hstack : M.stack = f :: rest)
      (hf : M.place f = .running) (htemps : (M.frame f).temps = []) :
      StepCase ⟨.finish e, junk⟩ (M.finish f rest e)
  | finishDestroyed {junk : Bool} {f : Handle} {rest : List Handle} {e : Exit V}
      (hstack : M.stack = f :: rest) (hf : M.place f = .destroyed) :
      StepCase ⟨.finish e, junk⟩ { M with stack := rest, uses := M.uses ++ M.usesOf [.promise] f }

variable {M} {M' : Machine V} {l : Label V}

theorem step_cases (h : M.step l = some M') : M.StepCase l M' := by
  obtain ⟨act, junk⟩ := l
  cases act with
  | call =>
    cases h
    exact .call
  | await =>
    simp only [step] at h
    split at h
    · rename_i g rest hstack
      split_ifs at h with hg
      cases h
      exact .await hstack hg
    · cases h
  | detach f =>
    simp only [step] at h
    split_ifs at h with hc
    simp only [Bool.and_eq_true, Bool.not_eq_true'] at hc
    cases h
    exact .detach hc.1 hc.2
  | resume f =>
    simp only [step] at h
    split_ifs at h with hc
    simp only [Bool.and_eq_true, Bool.not_eq_true'] at hc
    cases h
    exact .resume hc.1 hc.2
  | drop f =>
    simp only [step] at h
    split_ifs at h with hc
    cases h
    exact .drop hc
  | suspend =>
    simp only [step] at h
    split at h
    · rename_i f rest hstack
      split_ifs at h with hf hd
      · cases h
        exact .suspend hstack hf
      · cases h
        exact .suspendDestroyed hstack hd
    · cases h
  | wake f =>
    simp only [step] at h
    split_ifs at h with hf
    cases h
    exact .wake hf
  | endExpr =>
    simp only [step] at h
    split at h
    · rename_i g rest hstack
      split_ifs at h with hg
      cases h
      exact .endExpr hstack hg
    · cases h
  | finish e =>
    simp only [step] at h
    split at h
    · rename_i f rest hstack
      split_ifs at h with hf hd
      · cases h
        exact .finish hstack hf.1 hf.2
      · cases h
        exact .finishDestroyed hstack hd
    · cases h

end Machine

end EpollCoroutine.Coroutine
