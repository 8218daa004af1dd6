import Mathlib.Data.List.Nodup

/-!
# Sensors — `Ultrasonic`'s round-robin checker

`Ultrasonic` keeps three static members: `m_automaticEnabled`, the list
`m_sensors` of sensors to ping, and `m_thread`, the checker that walks the
list while automatic mode is on. Constructors that run `Initialize` stop the
checker, append the sensor and restart it; the destructor stops it, erases
the sensor and restarts it while sensors remain.

`State` holds the three members, whether `m_thread` is joinable, the counters
reset and, as ghost state, the live sensor objects. `construct` and `destruct`
are the C++ bodies alone; `exec` records the object's lifetime beside them,
so a body that forgot its sensor would break the invariant. A step that
assigns over a joinable thread, joins a thread that is not joinable, or
changes the list or a counter while a checker may run, faults. From the first
sensor on, no step faults, the thread is joinable exactly in automatic mode,
and the list holds the live sensors that ran `Initialize`
(`automaticMode_safe`). Constructors restore the mode they found, and the
destructor does too unless it leaves the list empty
(`automaticMode_restored`).
-/

namespace Wpilib.Ultrasonic

/-- An `Ultrasonic*`: the address of a sensor object. -/
abbrev Sensor := Nat

/-- How a constructor got its channels: channel numbers, references, shared
pointers, or raw pointers, either of which may be `nullptr`. -/
inductive Channels where
  | numbers
  | references
  | shared
  | pointers (pingNull echoNull : Bool)
  deriving DecidableEq, Repr

/-- How a step goes wrong. -/
inductive Fault where
  /-- `m_thread = std::thread(...)` over a joinable thread: `std::terminate`. -/
  | terminate
  /-- `m_thread.join()` of a thread that is not joinable: `std::system_error`. -/
  | notJoinable
  /-- `m_sensors` changed, or a counter reset, while a checker may be running. -/
  | race
  deriving DecidableEq, Repr

/-- The static members of `Ultrasonic` and the live sensor objects. -/
structure State where
  automaticEnabled : Bool
  /-- `m_thread.joinable()`: a checker was started and not yet joined. -/
  joinable : Bool
  sensors : List Sensor
  /-- The live sensor objects, each with whether its constructor ran
  `Initialize`. -/
  live : List (Sensor × Bool)
  /-- The sensors whose `m_counter.Reset()` ran, in order. -/
  resets : List Sensor
  deriving DecidableEq, Repr

/-- The static members before the first sensor. -/
def State.init : State := ⟨false, false, [], [], []⟩

/-! ## `Ultrasonic.cpp` -/

/-- `sensor->m_counter.Reset()`, which the checker must not see. -/
def resetCounter (sensor : Sensor) (s : State) : Except Fault State :=
  if s.joinable then .error .race else .ok { s with resets := s.resets ++ [sensor] }

/-- `for (auto& sensor : m_sensors) sensor->m_counter.Reset();` -/
def resetCounters : List Sensor → State → Except Fault State
  | [], s => .ok s
  | sensor :: rest, s => resetCounter sensor s >>= resetCounters rest

/-- A new `m_sensors`, which the checker must not see. -/
def setSensors (sensors : List Sensor) (s : State) : Except Fault State :=
  if s.joinable then .error .race else .ok { s with sensors := sensors }

/-- `Ultrasonic::SetAutomaticMode`. -/
def setAutomaticMode (enabling : Bool) (s : State) : Except Fault State :=
  if enabling = s.automaticEnabled then .ok s
  else
    let s := { s with automaticEnabled := enabling }
    if enabling then
      resetCounters s.sensors s >>= fun s =>
        if s.joinable then .error .terminate else .ok { s with joinable := true }
    else if s.joinable then resetCounters s.sensors { s with joinable := false }
    else .error .notJoinable

/-- `Ultrasonic::Initialize`, for the sensor at `this`. -/
def initializeSensor (this : Sensor) (s : State) : Except Fault State :=
  let originalMode := s.automaticEnabled
  setAutomaticMode false s >>= fun s =>
  setSensors (s.sensors ++ [this]) s >>= fun s =>
  resetCounter this s >>= setAutomaticMode originalMode

/-- The constructors; the one from raw pointers skips `Initialize` when
either pointer is `nullptr`. -/
def construct (this : Sensor) (channels : Channels) (s : State) : Except Fault State :=
  match channels with
  | .pointers pingNull echoNull => if pingNull || echoNull then .ok s else initializeSensor this s
  | _ => initializeSensor this s

/-- `Ultrasonic::~Ultrasonic`: the erase-remove of `this` from `m_sensors`. -/
def destruct (this : Sensor) (s : State) : Except Fault State :=
  let wasAutomaticMode := s.automaticEnabled
  setAutomaticMode false s >>= fun s =>
  setSensors (s.sensors.filter (· ≠ this)) s >>= fun s =>
  if !s.sensors.isEmpty && wasAutomaticMode then setAutomaticMode true s else .ok s

/-- Whether a constructor with these channels runs `Initialize`. -/
def Channels.runsInitialize : Channels → Bool
  | .pointers pingNull echoNull => !(pingNull || echoNull)
  | _ => true

/-- What one control thread does to the sensors. -/
inductive Op where
  | construct (this : Sensor) (channels : Channels)
  | destruct (this : Sensor)
  | setAutomaticMode (enabling : Bool)
  deriving DecidableEq, Repr

/-- Object lifetimes: a new sensor's address is no live sensor's, and only a
live sensor is destroyed. -/
def Op.valid : Op → State → Bool
  | .construct this _, s => this ∉ s.live.map (·.1)
  | .destruct this, s => this ∈ s.live.map (·.1)
  | .setAutomaticMode _, _ => true

/-- One call, on the control thread. Beside the constructor and the
destructor, the ghost `live` records the object's lifetime: a constructed
object is live from when its constructor returns, a destroyed one no longer
once its destructor has returned. -/
def exec : Op → State → Except Fault State
  | .construct this channels, s =>
    construct this channels s >>= fun s =>
      .ok { s with live := s.live ++ [(this, channels.runsInitialize)] }
  | .destruct this, s => destruct this s >>= fun s => .ok { s with live := s.live.filter (·.1 ≠ this) }
  | .setAutomaticMode enabling, s => setAutomaticMode enabling s

/-- The states the static members reach. -/
inductive Reachable : State → Prop
  | init : Reachable State.init
  | step {s s' : State} (op : Op) : Reachable s → op.valid s = true → exec op s = .ok s' →
      Reachable s'

/-! ## Each call, from a state where the thread is joinable exactly in
automatic mode -/

section Spec

variable {s : State}

theorem resetCounters_eq : ∀ (xs : List Sensor) (s : State), s.joinable = false →
    resetCounters xs s = .ok { s with resets := s.resets ++ xs }
  | [], s, _ => by rw [resetCounters, List.append_nil]
  | x :: xs, s, h => by
    simp only [resetCounters, resetCounter, h, Bool.false_eq_true, if_false]
    exact (resetCounters_eq xs { s with joinable := false, resets := s.resets ++ [x] } rfl).trans
      (by simp)

theorem setAutomaticMode_eq (b : Bool) (h : s.joinable = s.automaticEnabled) :
    setAutomaticMode b s =
      .ok { s with automaticEnabled := b, joinable := b,
                   resets := s.resets ++ if b = s.automaticEnabled then [] else s.sensors } := by
  unfold setAutomaticMode
  by_cases hb : b = s.automaticEnabled
  · subst hb
    cases s
    simp_all
  · cases b <;> cases ha : s.automaticEnabled <;> simp_all [resetCounters_eq, Bind.bind, Except.bind]

theorem initializeSensor_eq (this : Sensor) (h : s.joinable = s.automaticEnabled) :
    ∃ r, initializeSensor this s = .ok { s with sensors := s.sensors ++ [this], resets := r } := by
  rcases s with ⟨a, j, ss, l, r⟩
  simp only at h
  subst h
  cases j <;> simp [initializeSensor, setAutomaticMode_eq, setSensors, resetCounter, Bind.bind,
    Except.bind]

theorem construct_eq (this : Sensor) (channels : Channels) (h : s.joinable = s.automaticEnabled) :
    ∃ r, construct this channels s =
      .ok { s with sensors := s.sensors ++ if channels.runsInitialize then [this] else [],
                   resets := r } := by
  obtain ⟨r, hr⟩ := initializeSensor_eq this h
  cases channels with
  | pointers pingNull echoNull =>
    cases hn : (pingNull || echoNull)
    · exact ⟨r, by simp [construct, Channels.runsInitialize, hn, hr]⟩
    · exact ⟨s.resets, by simp [construct, Channels.runsInitialize, hn]⟩
  | _ => exact ⟨r, by simp [construct, Channels.runsInitialize, hr]⟩

theorem destruct_eq (this : Sensor) (h : s.joinable = s.automaticEnabled) :
    ∃ r, destruct this s =
      .ok { s with automaticEnabled := !(s.sensors.filter (· ≠ this)).isEmpty && s.automaticEnabled,
                   joinable := !(s.sensors.filter (· ≠ this)).isEmpty && s.automaticEnabled,
                   sensors := s.sensors.filter (· ≠ this), resets := r } := by
  unfold destruct
  rw [setAutomaticMode_eq false h]
  simp only [Bind.bind, Except.bind, setSensors, Bool.false_eq_true, if_false]
  by_cases hc : (!(s.sensors.filter (· ≠ this)).isEmpty && s.automaticEnabled) = true
  · simp only [hc, if_true, setAutomaticMode]
    simp_all [resetCounters_eq, Bind.bind, Except.bind]
  · simp only [hc, if_false]
    simp [Bool.eq_false_iff.2 hc]

end Spec

/-! ## The invariant -/

/-- What holds between calls: the checker thread is joinable exactly in
automatic mode, the live sensors are distinct objects, and `m_sensors` lists
those that ran `Initialize`, in the order they were constructed. -/
structure Invariant (s : State) : Prop where
  thread : s.joinable = s.automaticEnabled
  nodup : (s.live.map (·.1)).Nodup
  sensors : s.sensors = (s.live.filter (·.2)).map (·.1)

theorem Invariant.init : Invariant State.init := ⟨rfl, List.nodup_nil, rfl⟩

/-- Every call that object lifetimes allow returns, and keeps the invariant. -/
theorem Invariant.exec {s : State} (hi : Invariant s) {op : Op} (hv : op.valid s = true) :
    ∃ s', exec op s = .ok s' ∧ Invariant s' := by
  cases op with
  | construct this channels =>
    obtain ⟨r, hr⟩ := construct_eq this channels hi.thread
    simp only [Ultrasonic.exec, hr, Bind.bind, Except.bind, Except.ok.injEq, exists_eq_left']
    refine ⟨hi.thread, ?_, ?_⟩
    · have hv' : this ∉ s.live.map (·.1) := by simpa [Op.valid] using hv
      simpa [List.nodup_append, hi.nodup] using hv'
    · cases channels.runsInitialize <;> simp [hi.sensors, List.filter_append]
  | destruct this =>
    obtain ⟨r, hr⟩ := destruct_eq this hi.thread
    simp only [Ultrasonic.exec, hr, Bind.bind, Except.bind, Except.ok.injEq, exists_eq_left']
    refine ⟨rfl, hi.nodup.sublist ((List.filter_sublist _).map _), ?_⟩
    simp [hi.sensors, List.filter_map, List.filter_filter, Bool.and_comm, Function.comp_def]
  | setAutomaticMode enabling =>
    exact ⟨_, setAutomaticMode_eq enabling hi.thread, rfl, hi.nodup, hi.sensors⟩

theorem Reachable.invariant {s : State} (hr : Reachable s) : Invariant s := by
  induction hr with
  | init => exact .init
  | step _ _ hv he ih =>
    obtain ⟨s', hs', hi'⟩ := ih.exec hv
    rw [he, Except.ok.injEq] at hs'
    exact hs' ▸ hi'

/-- **The round-robin checker's state machine.** In every state the calls
reach, the checker thread is joinable exactly when automatic mode is on;
`m_sensors` lists every live sensor whose constructor ran `Initialize` once
each, and nothing else; and every construction of a new sensor, destruction
of a live one and `SetAutomaticMode` call returns: none assigns over a
joinable thread, joins one that is not joinable, or changes `m_sensors` or
resets a counter while a checker may run. -/
theorem automaticMode_safe {s : State} (hr : Reachable s) :
    s.joinable = s.automaticEnabled ∧ s.sensors.Nodup ∧
      (∀ x, x ∈ s.sensors ↔ (x, true) ∈ s.live) ∧
      ∀ op, op.valid s = true → ∃ s', exec op s = .ok s' := by
  have hi := hr.invariant
  refine ⟨hi.thread, ?_, fun x => ?_, fun _ hv => (hi.exec hv).imp fun _ h => h.1⟩
  · rw [hi.sensors]; exact hi.nodup.sublist ((List.filter_sublist _).map _)
  · simp [hi.sensors]

/-- Sensor `1` from channel numbers, automatic mode on, sensor `2` from a null
ping pointer, sensor `3` from shared pointers, then sensor `1` destroyed: the
checker runs over sensor `3` alone. -/
theorem automaticMode_safe_run :
    ∃ s, Reachable s ∧ s.sensors = [3] ∧ s.automaticEnabled = true ∧
      (s.joinable = s.automaticEnabled ∧ s.sensors.Nodup ∧
        (∀ x, x ∈ s.sensors ↔ (x, true) ∈ s.live) ∧
        ∀ op, op.valid s = true → ∃ s', exec op s = .ok s') :=
  have hr := Reachable.step (.destruct 1) (.step (.construct 3 .shared)
    (.step (.construct 2 (.pointers true false)) (.step (.setAutomaticMode true)
      (.step (.construct 1 .numbers) .init rfl rfl) rfl rfl) rfl rfl) rfl rfl) rfl rfl
  ⟨_, hr, rfl, rfl, automaticMode_safe hr⟩

/-- **Constructors and the destructor restore automatic mode**, as their
comments promise. In every state the calls reach, constructing a sensor
returns with automatic mode as it was: the checker is stopped while the list
changes and restarted after. Destroying a sensor returns with the sensor
erased from `m_sensors`, and with automatic mode as it was while sensors
remain in the list, and off once none remains. -/
theorem automaticMode_restored {s : State} (hr : Reachable s) (this : Sensor) :
    (∀ channels, ∃ s', construct this channels s = .ok s' ∧
      s'.automaticEnabled = s.automaticEnabled) ∧
      ∃ s', destruct this s = .ok s' ∧ s'.sensors = s.sensors.filter (· ≠ this) ∧
        s'.automaticEnabled = (s.automaticEnabled && !s'.sensors.isEmpty) := by
  have hj := hr.invariant.thread
  refine ⟨fun channels => ?_, ?_⟩
  · obtain ⟨_, he⟩ := construct_eq this channels hj
    exact ⟨_, he, rfl⟩
  · obtain ⟨_, he⟩ := destruct_eq this hj
    exact ⟨_, he, rfl, Bool.and_comm _ _⟩

/-- Sensors `1` and `3` in automatic mode: destroying `3` keeps the mode on
for sensor `1`. -/
theorem automaticMode_restored_pair :
    ∃ s, Reachable s ∧ s.sensors = [1, 3] ∧ s.automaticEnabled = true ∧
      ((∀ channels, ∃ s', construct 3 channels s = .ok s' ∧
        s'.automaticEnabled = s.automaticEnabled) ∧
        ∃ s', destruct 3 s = .ok s' ∧ s'.sensors = s.sensors.filter (· ≠ 3) ∧
          s'.automaticEnabled = (s.automaticEnabled && !s'.sensors.isEmpty)) :=
  have hr := Reachable.step (.construct 3 .shared) (.step (.setAutomaticMode true)
    (.step (.construct 1 .numbers) .init rfl rfl) rfl rfl) rfl rfl
  ⟨_, hr, rfl, rfl, automaticMode_restored hr 3⟩

end Wpilib.Ultrasonic
