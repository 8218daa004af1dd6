import Wpilib.Commands.State

/-!
# Commands — `Scheduler.cpp`

One definition per function of `Scheduler.cpp`, under the function's name,
computing what the C++ computes; loops are recursions over the list the loop
walks. Calls into user code go through `Hooks`, and the calls that user code
makes back into the scheduler run through `perform`.

`Remove` calls the removed command's `Removed` hook, whose user code may call
`Remove` again. A nested call that does anything erases a running command
first, so the nesting is no deeper than the running set is large: `removeN`
carries that bound as fuel, and `remove` starts it one past the set's size.
-/

namespace Wpilib.Commands

/-- The scheduler's entry points, and the dashboard writing the `Cancel`
entry. -/
inductive Op where
  | registerSubsystem (subsystem : Option Subsystem)
  | addCommand (command : Option Command)
  | addButton (button : ButtonScheduler)
  | setEnabled (enabled : Bool)
  | run
  | remove (command : Option Command)
  | removeAll
  | requestCancel (ids : List Nat)
  | updateTable

section

variable (w : Registry) (h : Hooks)

/-- `Scheduler::AddCommand`: under `m_additionsMutex`, queue `command` unless
it is queued already. Locking the mutex the thread already holds deadlocks. -/
def addCommand (command : Option Command) (s : State) : Except Fault State :=
  if s.additionsLocked then .error .deadlock
  else if command ∈ s.additions then .ok s
  else .ok { s with additions := s.additions ++ [command] }

/-- The calls a hook's user code makes, in order; `remove` and `removeAll` are
how a nested `Remove` and `RemoveAll` run. -/
def performWith (remove : Option Command → State → Except Fault State)
    (removeAll : State → Except Fault State) : List Action → State → Except Fault State
  | [], s => .ok s
  | .addCommand c :: as, s => addCommand c s >>= performWith remove removeAll as
  | .cancel _ :: as, s => performWith remove removeAll as s
  | .remove c :: as, s => remove c s >>= performWith remove removeAll as
  | .removeAll :: as, s => removeAll s >>= performWith remove removeAll as

/-- `while (m_commands.size() > 0) Remove(*m_commands.begin());`, the loop of
`Scheduler::RemoveAll`. Each round erases the first command, so a set of
`fuel` commands needs `fuel` rounds. -/
def removeAllLoop (remove : Option Command → State → Except Fault State) :
    Nat → State → Except Fault State
  | 0, s => if s.commands.toList = [] then .ok s else .error .outOfFuel
  | fuel + 1, s =>
    match s.commands.toList with
    | [] => .ok s
    | c :: _ => remove (some c) s >>= removeAllLoop remove fuel

/-- The requirements loop of `Scheduler::Remove`: every requirement's holder
becomes `nullptr`, whoever held it. -/
def releaseRequirements (s : State) (requirements : List Subsystem) : State :=
  requirements.foldl (fun s lock => s.setCurrentCommand lock none) s

/-- What `Scheduler::Remove` does to a running command before its `Removed`
hook's user code runs: erase it, release its requirements, call `Removed`. -/
def eraseCommand (c : Command) (s : State) : State :=
  (releaseRequirements { s with commands := s.commands.erase c }
    (w.requirements c).toList).record (.removed c)

/-- `Scheduler::Remove`, where the `Removed` hook may call `Remove` and
`RemoveAll` again at most `fuel` levels deep. -/
def removeN : Nat → Option Command → State → Except Fault State
  | _, none, s => .ok (s.record (.error .nullParameter "command"))
  | 0, some c, s => if c ∈ s.commands then .error .outOfFuel else .ok s
  | fuel + 1, some c, s =>
    if c ∈ s.commands then
      performWith (removeN fuel) (fun s => removeAllLoop (removeN fuel) s.commands.size s)
        (h.removed (eraseCommand w c s) c) (eraseCommand w c s)
    else .ok s

/-- `Scheduler::Remove`. -/
def remove (command : Option Command) (s : State) : Except Fault State :=
  removeN w h (s.commands.size + 1) command s

/-- `Scheduler::RemoveAll`. -/
def removeAll (s : State) : Except Fault State :=
  removeAllLoop (remove w h) s.commands.size s

/-- `Scheduler::ResetAll`: `RemoveAll`, then the subsystems, buttons, queue and
running set cleared, and the three dashboard entries replaced by unbound
ones, which read as no value. -/
def resetAll (s : State) : Except Fault State :=
  removeAll w h s >>= fun s =>
    .ok { s with subsystems := .empty, buttons := [], additions := [], commands := .empty,
                 names := [], ids := [], cancelEntry := [] }

/-- What the scheduler does for the calls a hook's user code makes. -/
def perform : List Action → State → Except Fault State :=
  performWith (remove w h) (removeAll w h)

/-- The holder of `lock` may not be interrupted: the first loop of
`ProcessCommandAddition` gives up on such a requirement. -/
def blocked (s : State) (lock : Subsystem) : Bool :=
  match s.currentCommand lock with
  | some d => !w.interruptible d
  | none => false

/-- The second loop of `ProcessCommandAddition`: each requirement's holder is
cancelled and removed, then the requirement goes to `command`. -/
def giveRequirements (command : Command) : List Subsystem → State → Except Fault State
  | [], s => .ok s
  | lock :: rest, s =>
    (match s.currentCommand lock with
      | some d => remove w h (some d) (s.record (.cancel d))
      | none => .ok s) >>= fun s =>
      giveRequirements command rest (s.setCurrentCommand lock (some command))

/-- `Scheduler::ProcessCommandAddition`. -/
def processCommandAddition (command : Option Command) (s : State) : Except Fault State :=
  match command with
  | none => .ok s
  | some c =>
    if s.adding then
      .ok (s.record (.error .incompatibleState "Can not start command from cancel method"))
    else if c ∈ s.commands then .ok s
    else if (w.requirements c).toList.any (blocked w s) then .ok s
    else
      giveRequirements w h c (w.requirements c).toList { s with adding := true } >>= fun s =>
        .ok { ({ s with adding := false, commands := s.commands.insert c }.record
          (.startRunning c)) with runningCommandsChanged := true }

/-- The button loop of `Scheduler::Run`, over `m_buttons` from the back. -/
def pollButtons : List ButtonScheduler → State → Except Fault State
  | [], s => .ok s
  | b :: bs, s =>
    let s := s.record (.execute b)
    perform w h (h.execute s b) s >>= pollButtons bs

/-- The `Periodic` loop of `Scheduler::Run`. -/
def callPeriodic : List Subsystem → State → Except Fault State
  | [], s => .ok s
  | sub :: subs, s =>
    let s := s.record (.periodic sub)
    perform w h (h.periodic s sub) s >>= callPeriodic subs

/-- The body of the command loop of `Scheduler::Run`: step `c`, and remove it
when it is done. -/
def stepCommand (c : Command) (s : State) : Except Fault State :=
  let s := s.record (.run c)
  perform w h (h.run s c).1 s >>= fun s' =>
    if (h.run s c).2 then .ok s'
    else remove w h (some c) s' >>= fun s => .ok { s with runningCommandsChanged := true }

/-- The command loop of `Scheduler::Run`. `it` is where the iterator points
(`none` is the end) and `cs` is the set as the loop found it; nothing is added
to the set while the loop runs, so the iterator's target is always ahead in
`cs`. The iterator moves on before the command runs: if its new element is
erased meanwhile, the next round uses an invalid iterator. -/
def stepCommands : List Command → Option Command → State → Except Fault State
  | [], _, s => .ok s
  | c :: cs, it, s =>
    if it ≠ some c then stepCommands cs it s
    else if c ∉ s.commands then .error .invalidIterator
    else stepCommand w h c s >>= stepCommands cs (s.commands.next c)

/-- The additions loop of `Scheduler::Run`. -/
def processAdditions : List (Option Command) → State → Except Fault State
  | [], s => .ok s
  | c :: cs, s => processCommandAddition w h c s >>= processAdditions cs

/-- The additions block of `Scheduler::Run`: the queue is processed and
cleared with `m_additionsMutex` held. -/
def drainAdditions (s : State) : Except Fault State :=
  processAdditions w h s.additions { s with additionsLocked := true } >>= fun s =>
    .ok { s with additions := [], additionsLocked := false }

/-- The default-command loop of `Scheduler::Run`. -/
def addDefaults : List Subsystem → State → Except Fault State
  | [], s => .ok s
  | lock :: rest, s =>
    (if s.currentCommand lock = none then
        processCommandAddition w h (w.defaultCommand lock) s
      else .ok s) >>= fun s => addDefaults rest (s.record (.confirmCommand lock))

/-- `Scheduler::Run` up to the default-command loop. -/
def runPhases (s : State) : Except Fault State :=
  pollButtons w h s.buttons.reverse s >>= fun s =>
  callPeriodic w h s.subsystems.toList s >>= fun s =>
  let s := { s with runningCommandsChanged := false }
  stepCommands w h s.commands.toList s.commands.toList.head? s >>= drainAdditions w h

/-- `Scheduler::Run`: a disabled scheduler returns at once. -/
def run (s : State) : Except Fault State :=
  if s.enabled then runPhases w h s >>= fun s => addDefaults w h s.subsystems.toList s
  else .ok s

/-- `Scheduler::RegisterSubsystem`. -/
def registerSubsystem : Option Subsystem → State → State
  | none, s => s.record (.error .nullParameter "subsystem")
  | some sub, s => { s with subsystems := s.subsystems.insert sub }

/-- The cancel loop of the update callback: each command whose id is in
`toCancel` is cancelled, once per occurrence. -/
def cancelRequested (toCancel : List Nat) : List Command → State → State
  | [], s => s
  | c :: cs, s =>
    cancelRequested toCancel cs
      ((toCancel.filter (· = w.id c)).foldl (fun s _ => s.record (.cancel c)) s)

/-- The SmartDashboard update callback that `Scheduler::InitSendable`
installs: cancel what the `Cancel` entry asks for, then republish `Names` and
`Ids` if the running set changed. -/
def updateTable (s : State) : State :=
  let s := if s.cancelEntry = [] then s
    else { cancelRequested w s.cancelEntry s.commands.toList s with cancelEntry := [] }
  if s.runningCommandsChanged then
    { s with names := s.commands.toList.map w.name, ids := s.commands.toList.map w.id }
  else s

/-- One entry point, called from outside any other. -/
def exec : Op → State → Except Fault State
  | .registerSubsystem sub, s => .ok (registerSubsystem sub s)
  | .addCommand c, s => addCommand c s
  | .addButton b, s => .ok { s with buttons := s.buttons ++ [b] }
  | .setEnabled e, s => .ok { s with enabled := e }
  | .run, s => run w h s
  | .remove c, s => remove w h c s
  | .removeAll, s => removeAll w h s
  | .requestCancel ids, s => .ok { s with cancelEntry := ids }
  | .updateTable, s => .ok (updateTable w s)

/-- Entry points one after another. -/
def execAll : List Op → State → Except Fault State
  | [], s => .ok s
  | op :: ops, s => exec w h op s >>= execAll ops

/-- The states a fresh scheduler reaches through its entry points. -/
inductive Reachable : State → Prop
  | init : Reachable State.init
  | step {s s' : State} (op : Op) : Reachable s → exec w h op s = .ok s' → Reachable s'

end

end Wpilib.Commands
