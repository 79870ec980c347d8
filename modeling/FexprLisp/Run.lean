import FexprLisp.World

/-!
# Computations

A computation takes a machine to a result and a machine. It may also give no answer at all, which
means that its fuel ran out; every other end, a fault or an exit included, leaves a machine behind.
-/

namespace FexprLisp

structure Machine where
  env : Env
  world : World

/-- `none` is out of fuel. -/
def Run (α : Type) : Type := Machine → Option (Except Stop α × Machine)

namespace Run

variable {α β : Type}

def pure (a : α) : Run α := fun m => some (.ok a, m)

def bind (x : Run α) (f : α → Run β) : Run β := fun m =>
  match x m with
  | none => none
  | some (.ok a, m') => f a m'
  | some (.error e, m') => some (.error e, m')

instance : Monad Run where
  pure := pure
  bind := bind

def outOfFuel : Run α := fun _ => none

def stop (e : Stop) : Run α := fun m => some (.error e, m)

def fail (f : Fault) : Run α := stop (.fault f)

/-- A complaint of a builtin about its arguments. -/
def reject (f : ArgumentFault) : Run α := fail (.invalidArguments f)

def ofExcept : Except Fault α → Run α
  | .ok a => pure a
  | .error f => fail f

def ofStop : Except Stop α → Run α
  | .ok a => pure a
  | .error e => stop e

def machine : Run Machine := fun m => some (.ok m, m)

def env : Run Env := fun m => some (.ok m.env, m)

def world : Run World := fun m => some (.ok m.world, m)

def setEnv (env : Env) : Run Unit := fun m => some (.ok (), { m with env })

def setWorld (world : World) : Run Unit := fun m => some (.ok (), { m with world })

def write (t : Text) : Run Unit := fun m => some (.ok (), { m with world := m.world.write t })

def note (source : LogSource) (message : Text) : Run Unit := fun m =>
  some (.ok (), { m with world := m.world.note source message })

/-- Run with other frames, and put back the frames of before at whatever end. -/
def withFrames (frames : List Bindings) (x : Run α) : Run α := fun m =>
  match x { m with env := { m.env with frames } } with
  | none => none
  | some (r, m') => some (r, { m' with env := { m'.env with frames := m.env.frames } })

/-- Run in a frame of its own, which is dropped at whatever end. -/
def inScope (x : Run α) : Run α := fun m =>
  match x { m with env := m.env.push } with
  | none => none
  | some (r, m') => some (r, { m' with env := m'.env.pop })

/-- Pass a fault of the computation through `f`. -/
def mapFault (f : Fault → Fault) (x : Run α) : Run α := fun m =>
  match x m with
  | some (.error (.fault e), m') => some (.error (.fault (f e)), m')
  | r => r

@[simp] theorem pure_apply (a : α) (m : Machine) : (Pure.pure a : Run α) m = some (.ok a, m) := rfl

theorem bind_apply (x : Run α) (f : α → Run β) (m : Machine) :
    (x >>= f) m = match x m with
      | none => none
      | some (.ok a, m') => f a m'
      | some (.error e, m') => some (.error e, m') := rfl

end Run

end FexprLisp
