import Wpilib.Commands.PtrSet

/-!
# Commands — the scheduler's state

The data `Scheduler.cpp` reads and writes. Objects are named by their address,
as the scheduler's sets order them; `Command`, `Subsystem` and
`ButtonScheduler` are those addresses.

The scheduler does not own the command and subsystem objects: what it reads
from them (requirements, interruptibility, id, name, default command) is the
`Registry`. The scheduler's own fields are `State`. The user code behind the
virtual hooks (`Command::Run`, `Command::Removed`, `ButtonScheduler::Execute`,
`Subsystem::Periodic`) is `Hooks`: an oracle that sees the whole state, event
log included, so that every call of a hook can behave differently.
-/

namespace Wpilib.Commands

/-- A `Command*`: the address of a command object. -/
abbrev Command := Nat

/-- A `Subsystem*`. -/
abbrev Subsystem := Nat

/-- A `ButtonScheduler*`. -/
abbrev ButtonScheduler := Nat

/-- What the scheduler reads from the objects the application owns. A
command's requirements cannot change once it is queued, so they are fixed
here. -/
structure Registry where
  /-- `Command::GetRequirements`, a `std::set<Subsystem*>`. -/
  requirements : Command → PtrSet
  /-- `Command::IsInterruptible`. -/
  interruptible : Command → Bool
  /-- `Command::GetID`. -/
  id : Command → Nat
  /-- `Command::GetName`. -/
  name : Command → String
  /-- `Subsystem::GetDefaultCommand`, `none` for `nullptr`. -/
  defaultCommand : Subsystem → Option Command

/-- The error codes `wpi_setWPIErrorWithContext` reports in `Scheduler.cpp`. -/
inductive ErrorCode where
  | nullParameter
  | incompatibleState
  deriving DecidableEq, Repr

/-- A call the scheduler makes on an object it does not own, or an error it
reports. The log of these is how hook calls are observed. -/
inductive Event where
  | execute (button : ButtonScheduler)
  | periodic (subsystem : Subsystem)
  | run (command : Command)
  | cancel (command : Command)
  | removed (command : Command)
  | startRunning (command : Command)
  | confirmCommand (subsystem : Subsystem)
  | error (code : ErrorCode) (context : String)
  deriving DecidableEq, Repr

/-- A call that user code inside a hook makes into the scheduler.
`Command::Start` is `addCommand`; `Command::Cancel` only sets the command's
own flag, which the scheduler sees through the command's next `Run`, so it
leaves no event in the log. Hook calls of the other entry points, `AddButton`
and `Run` among them, are not modelled. -/
inductive Action where
  | addCommand (command : Option Command)
  | cancel (command : Command)
  | remove (command : Option Command)
  | removeAll
  deriving DecidableEq, Repr

/-- How a call can fail to return. -/
inductive Fault where
  /-- `m_additionsMutex` locked again by the thread that holds it. -/
  | deadlock
  /-- The step loop's iterator is used after its element was erased. -/
  | invalidIterator
  /-- `Remove` nested deeper than the fuel it starts with, one past the size
  of the running set. -/
  | outOfFuel
  deriving DecidableEq, Repr

/-- The fields of `Scheduler`, with each subsystem's `m_currentCommand`, the
state of `m_additionsMutex`, the SmartDashboard entries and the event log. -/
structure State where
  subsystems : PtrSet
  buttons : List ButtonScheduler
  additions : List (Option Command)
  commands : PtrSet
  adding : Bool
  enabled : Bool
  runningCommandsChanged : Bool
  /-- `Subsystem::GetCurrentCommand` of every subsystem. -/
  currentCommand : Subsystem → Option Command
  /-- Whether the scheduler's thread holds `m_additionsMutex`. -/
  additionsLocked : Bool
  /-- The `Names` entry. -/
  names : List String
  /-- The `Ids` entry. -/
  ids : List Nat
  /-- The `Cancel` entry; no value reads as the empty list. -/
  cancelEntry : List Nat
  log : List Event

/-- A fresh scheduler. `Scheduler.h` is not among the sources; `m_enabled`
starts `true` there, and `SetEnabled` reaches either value. -/
def State.init : State where
  subsystems := .empty
  buttons := []
  additions := []
  commands := .empty
  adding := false
  enabled := true
  runningCommandsChanged := false
  currentCommand := fun _ => none
  additionsLocked := false
  names := []
  ids := []
  cancelEntry := []
  log := []

/-- The user code behind the scheduler's virtual calls. `run` gives the calls
`Command::Run`'s user code makes and whether the command continues. -/
structure Hooks where
  execute : State → ButtonScheduler → List Action
  periodic : State → Subsystem → List Action
  run : State → Command → List Action × Bool
  removed : State → Command → List Action

namespace State

/-- Append an event to the log. -/
def record (s : State) (e : Event) : State := { s with log := s.log ++ [e] }

/-- `Subsystem::SetCurrentCommand`. -/
def setCurrentCommand (s : State) (lock : Subsystem) (c : Option Command) : State :=
  { s with currentCommand := fun sub => if sub = lock then c else s.currentCommand sub }

section Simp

variable (s : State) (e : Event) (lock : Subsystem) (c : Option Command)

@[simp] theorem record_log : (s.record e).log = s.log ++ [e] := rfl
@[simp] theorem record_commands : (s.record e).commands = s.commands := rfl
@[simp] theorem record_currentCommand : (s.record e).currentCommand = s.currentCommand := rfl
@[simp] theorem record_additions : (s.record e).additions = s.additions := rfl
@[simp] theorem record_adding : (s.record e).adding = s.adding := rfl
@[simp] theorem record_additionsLocked : (s.record e).additionsLocked = s.additionsLocked := rfl
@[simp] theorem record_subsystems : (s.record e).subsystems = s.subsystems := rfl
@[simp] theorem record_enabled : (s.record e).enabled = s.enabled := rfl
@[simp] theorem record_runningCommandsChanged :
    (s.record e).runningCommandsChanged = s.runningCommandsChanged := rfl

@[simp] theorem setCurrentCommand_currentCommand (sub : Subsystem) :
    (s.setCurrentCommand lock c).currentCommand sub =
      if sub = lock then c else s.currentCommand sub := rfl
@[simp] theorem setCurrentCommand_log : (s.setCurrentCommand lock c).log = s.log := rfl
@[simp] theorem setCurrentCommand_commands :
    (s.setCurrentCommand lock c).commands = s.commands := rfl
@[simp] theorem setCurrentCommand_additions :
    (s.setCurrentCommand lock c).additions = s.additions := rfl
@[simp] theorem setCurrentCommand_adding : (s.setCurrentCommand lock c).adding = s.adding := rfl
@[simp] theorem setCurrentCommand_additionsLocked :
    (s.setCurrentCommand lock c).additionsLocked = s.additionsLocked := rfl

end Simp

end State

end Wpilib.Commands
